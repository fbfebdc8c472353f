import ControlFlow.Graph.Drawing
import ControlFlow.Proofs.Document.Scanned
import ControlFlow.Proofs.Graph.Escaped
import ControlFlow.Proofs.Pruning.Doomed

/-! # Reading drawings back

The lines of a drawing say which nodes a graph has, in the order of their keys, and how its edges
join them. No label breaks a line or closes its quotes, so a reader gets all of this back whatever
the labels are and whatever the second labels say: two graphs with one drawing look the same.
-/

namespace ControlFlow

open Text

/-! ## What a drawing shows -/

/-- What a drawing shows of a node: the kind of a mark, or the label of any other node. -/
inductive Look where
  | mark (kind : Mark)
  | text (label : String)
deriving DecidableEq

def Point.look : Point → Look
  | .mark kind _ => .mark kind
  | p => .text p.label

namespace Graph

/-- How the nodes look, in the order of their keys. -/
def looks (g : Graph) : List Look := g.sorted.filterMap fun n => g.nodes[n]?.map Point.look

/-- The edges in the order in which they were drawn, between positions in the order of the keys. -/
def joints (g : Graph) : List (Nat × Nat) :=
  g.edges.map fun e => (g.sorted.idxOf e.1, g.sorted.idxOf e.2)

theorem length_sorted (g : Graph) : g.sorted.length = g.nodes.length := by
  rw [sorted, List.length_map, List.length_mergeSort, List.length_zipIdx]

theorem length_looks (g : Graph) : g.looks.length = g.nodes.length := by
  rw [looks, ← length_sorted g, List.length_filterMap_eq_countP, List.countP_eq_length]
  intro n hn
  rw [Option.isSome_map, List.getElem?_eq_getElem (mem_sorted.mp hn), Option.isSome_some]

end Graph

/-! ## The reader -/

/-- The texts between the line breaks of a text. -/
def linesOf (text : String) : List (List Char) := text.toList.splitOn '\n'

namespace Look

/-- Read how a node looks from what stands after the opening bracket of its line. -/
def readFace : List Char → Option Look
  | 'l' :: 'a' :: 'b' :: 'e' :: 'l' :: '=' :: '"' :: rest =>
      (Escaped.read rest).map fun r => .text (String.ofList r.1)
  | 'l' :: 'a' :: 'b' :: 'e' :: 'l' :: '=' :: 's' :: _ => some (.mark .start)
  | 'l' :: 'a' :: 'b' :: 'e' :: 'l' :: '=' :: 'e' :: _ => some (.mark .finish)
  | 's' :: 'h' :: 'a' :: 'p' :: 'e' :: '=' :: _ => some (.mark .join)
  | _ => none

/-- Read how a node looks from a line, if the line is one of a node. -/
def readNode : List Char → Option Look
  | '\t' :: rest =>
      match rest.dropWhile Char.isDigit with
      | ' ' :: '[' :: rest => readFace rest
      | _ => none
  | _ => none

/-- Read the ends of an edge from a line, if the line is one of an edge. -/
def readEdge : List Char → Option (Nat × Nat)
  | '\t' :: rest =>
      match rest.dropWhile Char.isDigit with
      | ' ' :: '-' :: '>' :: ' ' :: target =>
          some (digitsValue 0 (rest.takeWhile Char.isDigit),
            digitsValue 0 (target.takeWhile Char.isDigit))
      | _ => none
  | _ => none

/-- The nodes that a drawing shows. -/
def nodesIn (text : String) : List Look := (linesOf text).filterMap readNode

/-- The edges that a drawing shows. -/
def edgesIn (text : String) : List (Nat × Nat) := (linesOf text).filterMap readEdge

end Look

/-! ## Lines -/

/-- The text has no line break. -/
def OneLine (s : String) : Prop := '\n' ∉ s.toList

instance (s : String) : Decidable (OneLine s) := inferInstanceAs (Decidable ('\n' ∉ s.toList))

namespace OneLine

variable {s t : String}

theorem append (hs : OneLine s) (ht : OneLine t) : OneLine (s ++ t) := by
  unfold OneLine
  rw [String.toList_append, List.mem_append, not_or]
  exact ⟨hs, ht⟩

theorem intercalate {texts : List String} (hs : OneLine s) (h : ∀ t ∈ texts, OneLine t) :
    OneLine (s.intercalate texts) := by
  unfold OneLine
  rw [String.toList_intercalate]
  induction texts with
  | nil => simp
  | cons t rest ih =>
      have hrest := ih fun t ht => h t (List.mem_cons_of_mem _ ht)
      cases rest with
      | nil => exact List.intercalate_singleton ▸ h t List.mem_cons_self
      | cons u rest =>
          rw [List.map_cons, List.map_cons, List.intercalate_cons_cons, List.append_assoc,
            List.mem_append, List.mem_append, not_or, not_or]
          exact ⟨h t List.mem_cons_self, hs, hrest⟩

theorem decimal (n : Nat) : OneLine (Text.decimal n) := by
  unfold OneLine Text.decimal
  rw [String.toList_ofList]
  exact fun hmem => absurd (isDigit_of_mem_digits hmem) (by decide)

theorem escaped (s : String) : OneLine (Escaped.text s) := Escaped.newline_not_mem_text s

end OneLine

/-- A text is cut at its line breaks. -/
theorem splitOn_lines {lines : List (List Char)} {last : List Char}
    (hlines : ∀ l ∈ lines, '\n' ∉ l) (hlast : '\n' ∉ last) :
    (lines.flatMap (· ++ ['\n']) ++ last).splitOn '\n' = lines ++ [last] := by
  induction lines with
  | nil => exact List.splitOn_eq_singleton hlast
  | cons l rest ih =>
      rw [List.flatMap_cons, List.append_assoc, List.append_assoc, List.singleton_append,
        List.splitOn_append_cons_self_of_not_mem (hlines l List.mem_cons_self),
        ih fun l hl => hlines l (List.mem_cons_of_mem _ hl), List.cons_append]

namespace Analysis

variable (a : Analysis)

theorem oneLine_bracketed {separator : String} {texts : List String} (hs : OneLine separator)
    (h : ∀ t ∈ texts, OneLine t) : OneLine (bracketed separator texts) := by
  unfold bracketed
  refine (OneLine.append (by decide) (.intercalate hs fun t ht => ?_)).append (by decide)
  exact h t (List.mem_mergeSort.mp ht)

theorem oneLine_variableLabel (d : DeclId) : OneLine (a.variableLabel d) := by
  unfold variableLabel
  split
  · exact .escaped _
  · exact (OneLine.append (by decide) (.decimal d)).append (by decide)

theorem oneLine_nodeLabel (n : NodeId) : OneLine (a.nodeLabel n) := .escaped _

theorem oneLine_part {name separator : String} {texts : List String} (hname : OneLine name)
    (hs : OneLine separator) (h : ∀ t ∈ texts, OneLine t) :
    ∀ t ∈ part name separator texts, OneLine t := by
  unfold part
  split
  · exact fun t ht => absurd ht List.not_mem_nil
  · intro t ht
    rw [List.mem_singleton.mp ht]
    exact (hname.append (by decide)).append (oneLine_bracketed hs h)

theorem oneLine_noteText (n : NodeId) (e : Effect) : OneLine (a.noteText n e) := by
  have hvariables (ds : List DeclId) : ∀ t ∈ ds.map a.variableLabel, OneLine t := by
    intro t ht
    obtain ⟨d, -, rfl⟩ := List.mem_map.mp ht
    exact a.oneLine_variableLabel d
  have hnodes (ns : List NodeId) : OneLine (bracketed ", " (ns.map a.nodeLabel)) := by
    refine oneLine_bracketed (by decide) fun t ht => ?_
    obtain ⟨m, -, rfl⟩ := List.mem_map.mp ht
    exact a.oneLine_nodeLabel m
  unfold noteText
  refine .intercalate (by decide) fun t ht => ?_
  simp only [List.mem_append] at ht
  rcases ht with ((((huse | hgen) | hkill) | hreach) | halias) | hkeep
  · exact oneLine_part (by decide) (by decide) (hvariables _) t huse
  · refine oneLine_part (by decide) (by decide) (fun u hu => ?_) t hgen
    obtain ⟨d, -, rfl⟩ := List.mem_map.mp hu
    exact ((a.oneLine_variableLabel d).append (by decide)).append (a.oneLine_nodeLabel n)
  · refine oneLine_part (by decide) (by decide) (fun u hu => ?_) t hkill
    obtain ⟨d, -, hd⟩ := List.mem_filterMap.mp hu
    split_ifs at hd
    rw [← Option.some.inj hd]
    exact ((a.oneLine_variableLabel d).append (by decide)).append (hnodes _)
  · split at hreach
    next r hr =>
      have hbefore := hnodes (r.before.map Prod.snd)
      have hafter := hnodes (r.after.map Prod.snd)
      rw [List.map_map] at hbefore hafter
      rw [List.mem_singleton.mp hreach]
      exact (((OneLine.append (by decide) hbefore).append (by decide)).append hafter).append
        (by decide)
    next => exact absurd hreach List.not_mem_nil
  · exact oneLine_part (by decide) (by decide) (hvariables _) t halias
  · split_ifs at hkeep
    · rw [List.mem_singleton.mp hkeep]
      decide
    · exact absurd hkeep List.not_mem_nil

theorem oneLine_note (n : NodeId) : OneLine (a.note n) := by
  unfold note
  split
  next e _ => exact (OneLine.append (by decide) (a.oneLine_noteText n e)).append (by decide)
  next => decide

theorem oneLine_face (p : Point) : OneLine (face p) := by
  unfold face
  split
  · decide
  · decide
  · decide
  · exact (OneLine.append (by decide) (.escaped _)).append (by decide)

end Analysis

/-! ## Reading one line -/

namespace Look

open Analysis

/-- Whatever stands behind the face of a node, its look is read from it. -/
theorem readFace_face (p : Point) (rest : List Char) :
    readFace ((face p).toList ++ rest) = some p.look := by
  have hlabel (s : String) :
      readFace (("label=\"" ++ Escaped.text s ++ "\"").toList ++ rest) = some (.text s) := by
    have hread := Escaped.read_chars s.toList rest
    simp only [String.toList_append, Escaped.text, String.toList_ofList, List.append_assoc]
    change (Escaped.read (Escaped.chars s.toList ++ '"' :: rest)).map _ = _
    rw [hread, Option.map_some, String.ofList_toList]
  unfold face
  split
  · rfl
  · rfl
  · rfl
  next hstart hfinish hjoin =>
    rw [hlabel]
    cases p with
    | mark kind counter =>
        cases kind with
        | start => exact absurd rfl (hstart counter)
        | finish => exact absurd rfl (hfinish counter)
        | join => exact absurd rfl (hjoin counter)
    | _ => rfl

/-- A number is read up to a blank. -/
theorem number_blank (n : Nat) (rest : List Char) :
    digitsValue 0 ((digits n ++ ' ' :: rest).takeWhile Char.isDigit) = n ∧
      (digits n ++ ' ' :: rest).dropWhile Char.isDigit = ' ' :: rest := by
  have hends : Scan.Ends (' ' :: rest) := by simp [Scan.Ends]
  obtain ⟨htake, hdrop⟩ := Scan.takeWhile_digits (fun _ hd => isDigit_of_mem_digits hd) hends
  exact ⟨htake.symm ▸ digitsValue_digits n, hdrop⟩

end Look

namespace Analysis

variable (a : Analysis) (sorted : List NodeId)

/-- The line of a node without its line break. -/
def nodeBody (position : Nat) (n : NodeId) : String :=
  "\t" ++ decimal position ++ " [" ++ (a.graph.nodes[n]?.map face).getD "" ++ a.note n ++ "];"

/-- The line of an edge whose ends are there, without its line break. -/
def edgeBody (position : Nat) (e : Flow) : String :=
  "\t" ++ decimal (sorted.idxOf e.1) ++ " -> " ++ decimal (sorted.idxOf e.2) ++ " [label=\"" ++
    decimal position ++ "\"];"

theorem oneLine_nodeBody (position : Nat) (n : NodeId) : OneLine (a.nodeBody position n) := by
  have hface : OneLine ((a.graph.nodes[n]?.map face).getD "") := by
    cases a.graph.nodes[n]? with
    | none => decide
    | some p => exact oneLine_face p
  exact ((((OneLine.append (by decide) (.decimal _)).append (by decide)).append hface).append
    (a.oneLine_note n)).append (by decide)

theorem oneLine_edgeBody (position : Nat) (e : Flow) : OneLine (edgeBody sorted position e) :=
  (((((OneLine.append (by decide) (.decimal _)).append (by decide)).append (.decimal _)).append
    (by decide)).append (.decimal _)).append (by decide)

theorem toList_nodeBody (position : Nat) (n : NodeId) :
    (a.nodeBody position n).toList = '\t' :: (digits position ++ ' ' :: '[' ::
      (((a.graph.nodes[n]?.map face).getD "").toList ++ ((a.note n).toList ++ "];".toList))) := by
  simp only [nodeBody, String.toList_append, decimal, String.toList_ofList, List.append_assoc]
  rfl

theorem toList_edgeBody (position : Nat) (e : Flow) :
    (edgeBody sorted position e).toList = '\t' :: (digits (sorted.idxOf e.1) ++ ' ' :: '-' :: '>' ::
      ' ' :: (digits (sorted.idxOf e.2) ++ ' ' :: ("[label=\"".toList ++ (digits position ++
        "\"];".toList)))) := by
  simp only [edgeBody, String.toList_append, decimal, String.toList_ofList, List.append_assoc]
  rfl

theorem readNode_nodeBody {n : NodeId} (hn : n < a.graph.nodes.length) (position : Nat) :
    Look.readNode (a.nodeBody position n).toList = a.graph.nodes[n]?.map Point.look := by
  rw [toList_nodeBody, Look.readNode, (Look.number_blank position _).2,
    List.getElem?_eq_getElem hn]
  exact Look.readFace_face _ _

theorem readEdge_nodeBody (position : Nat) (n : NodeId) :
    Look.readEdge (a.nodeBody position n).toList = none := by
  rw [toList_nodeBody, Look.readEdge, (Look.number_blank position _).2]
  rfl

theorem readNode_edgeBody (position : Nat) (e : Flow) :
    Look.readNode (edgeBody sorted position e).toList = none := by
  rw [toList_edgeBody, Look.readNode, (Look.number_blank _ _).2]
  rfl

theorem readEdge_edgeBody (position : Nat) (e : Flow) :
    Look.readEdge (edgeBody sorted position e).toList =
      some (sorted.idxOf e.1, sorted.idxOf e.2) := by
  rw [toList_edgeBody, Look.readEdge, (Look.number_blank _ _).2]
  simp only [(Look.number_blank _ _).1]

end Analysis

/-! ## Reading a drawing -/

/-- What is read from the lines of some things, if each line is read by itself. -/
theorem filterMap_lines {α β : Type} {line : Nat → α → String} {read : List Char → Option β}
    {look : α → Option β} {xs : List α} (h : ∀ i, ∀ x ∈ xs, read (line i x).toList = look x) :
    ((xs.mapIdx line).map String.toList).filterMap read = xs.filterMap look := by
  induction xs generalizing line with
  | nil => rfl
  | cons x rest ih =>
      have hrest : ((rest.mapIdx fun i => line (i + 1)).map String.toList).filterMap read =
          rest.filterMap look :=
        ih fun i y hy => h (i + 1) y (List.mem_cons_of_mem _ hy)
      rw [List.mapIdx_cons, List.map_cons, List.filterMap_cons, List.filterMap_cons, hrest,
        h 0 x List.mem_cons_self]

theorem linesOf_join {bodies : List String} {last : String} (h : ∀ s ∈ bodies, OneLine s)
    (hlast : OneLine last) :
    linesOf (String.join (bodies.map (· ++ "\n")) ++ last) =
      (bodies ++ [last]).map String.toList := by
  have hbodies : ∀ l ∈ bodies.map String.toList, '\n' ∉ l := by
    intro l hl
    obtain ⟨s, hs, rfl⟩ := List.mem_map.mp hl
    exact h s hs
  have hcut := splitOn_lines hbodies hlast
  rw [List.flatMap_map] at hcut
  rw [linesOf, String.toList_append, String.toList_join, List.flatMap_map, List.map_append]
  simp only [String.toList_append]
  exact hcut

namespace Analysis

variable (a : Analysis)

/-- The lines of a drawing before its last one, without their line breaks. -/
def bodies : List String :=
  "digraph \x7b" :: (a.graph.sorted.mapIdx a.nodeBody ++
    a.graph.edges.mapIdx (edgeBody a.graph.sorted))

theorem oneLine_of_mem_bodies : ∀ s ∈ a.bodies, OneLine s := by
  intro s hs
  rcases List.mem_cons.mp hs with rfl | hs
  · decide
  rcases List.mem_append.mp hs with hnode | hedge
  · obtain ⟨i, hi, rfl⟩ := List.mem_mapIdx.mp hnode
    exact a.oneLine_nodeBody _ _
  · obtain ⟨i, hi, rfl⟩ := List.mem_mapIdx.mp hedge
    exact oneLine_edgeBody _ _ _

theorem edgeLine_eq {sorted : List NodeId} {e : Flow} (hsource : e.1 ∈ sorted)
    (htarget : e.2 ∈ sorted) (position : Nat) :
    edgeLine sorted position e = some (edgeBody sorted position e ++ "\n") := by
  obtain ⟨i, hi⟩ := Option.isSome_iff_exists.mp (List.isSome_idxOf?.mpr hsource)
  obtain ⟨j, hj⟩ := Option.isSome_iff_exists.mp (List.isSome_idxOf?.mpr htarget)
  simp only [edgeLine, edgeBody, List.idxOf_eq_getD_idxOf?, hi, hj, Option.bind_eq_bind,
    Option.bind_some, Option.getD_some, Option.pure_def, String.append_assoc]
  rfl

theorem mapM_id_map_some {α : Type} (xs : List α) : (xs.map some).mapM id = some xs := by
  induction xs with
  | nil => rfl
  | cons x rest ih => simp [ih]

theorem nodeLine_eq (position : Nat) (n : NodeId) :
    a.nodeLine position n = a.nodeBody position n ++ "\n" := by
  simp only [nodeLine, nodeBody, String.append_assoc]
  rfl

/-- Where all edges join nodes that are there, the drawing succeeds. -/
theorem draw_eq (hinside : a.graph.FlowsInside) :
    a.draw = .ok (String.join (a.bodies.map (· ++ "\n")) ++ "\x7d") := by
  have hnodes : a.graph.sorted.mapIdx a.nodeLine =
      (a.graph.sorted.mapIdx a.nodeBody).map (· ++ "\n") := by
    apply List.ext_getElem?
    intro i
    simp only [List.getElem?_mapIdx, List.getElem?_map, Option.map_map]
    exact Option.map_congr fun n _ => a.nodeLine_eq i n
  have hedges : a.graph.edges.mapIdx (edgeLine a.graph.sorted) =
      ((a.graph.edges.mapIdx (edgeBody a.graph.sorted)).map (· ++ "\n")).map some := by
    apply List.ext_getElem?
    intro i
    simp only [List.getElem?_mapIdx, List.getElem?_map, Option.map_map]
    apply Option.map_congr
    intro e he
    obtain ⟨hsource, htarget⟩ := hinside e (List.mem_append_left _ (List.mem_of_getElem? he))
    exact edgeLine_eq (Graph.mem_sorted.mpr hsource) (Graph.mem_sorted.mpr htarget) i
  unfold draw
  simp only [hnodes, hedges, mapM_id_map_some, bodies, List.map_cons, List.map_append,
    String.join_cons, String.join_append, String.append_assoc]
  rfl

/-- A drawing is read back: the nodes in the order of their keys, and the edges in the order in
which they were drawn. -/
theorem read_draw (hinside : a.graph.FlowsInside) {text : String} (h : a.draw = .ok text) :
    Look.nodesIn text = a.graph.looks ∧ Look.edgesIn text = a.graph.joints := by
  rw [a.draw_eq hinside] at h
  cases h
  have hlines := linesOf_join a.oneLine_of_mem_bodies (by decide : OneLine "\x7d")
  rw [Look.nodesIn, Look.edgesIn, hlines, bodies, List.cons_append, List.map_cons, List.map_append,
    List.map_append]
  constructor
  · have hnodes := filterMap_lines fun i n hn => a.readNode_nodeBody (Graph.mem_sorted.mp hn) i
    have hedges := filterMap_lines fun i (e : Flow) (_ : e ∈ a.graph.edges) =>
      readNode_edgeBody a.graph.sorted i e
    rw [List.filterMap_cons_none rfl, List.filterMap_append, List.filterMap_append, hnodes, hedges,
      List.filterMap_none, List.append_nil]
    exact List.append_nil _
  · have hnodes := filterMap_lines fun i n (_ : n ∈ a.graph.sorted) => a.readEdge_nodeBody i n
    have hedges := filterMap_lines fun i (e : Flow) (_ : e ∈ a.graph.edges) =>
      readEdge_edgeBody a.graph.sorted i e
    rw [List.filterMap_cons_none rfl, List.filterMap_append, List.filterMap_append, hnodes, hedges,
      List.filterMap_none, List.filterMap_eq_map', List.nil_append]
    exact List.append_nil _

end Analysis

/-! ## Digests -/

namespace Text

theorem hexPair_inj {m n : Nat} (hm : m < 256) (hn : n < 256) (h : hexPair m = hexPair n) :
    m = n := by
  have hbyte := byte?_hexPair hm
  obtain ⟨hhigh, hlow⟩ : hexDigit (m / 16 % 16) = hexDigit (n / 16 % 16) ∧
      hexDigit (m % 16) = hexDigit (n % 16) := by simpa [hexPair] using h
  rw [hhigh, hlow, byte?_hexPair hn] at hbyte
  exact (Option.some.inj hbyte).symm

/-- Bytes are told apart by their digits. -/
theorem flatMap_hexPair_inj {bs cs : List UInt8}
    (h : bs.flatMap (fun b => hexPair b.toNat) = cs.flatMap fun b => hexPair b.toNat) :
    bs = cs := by
  induction bs generalizing cs with
  | nil =>
      cases cs with
      | nil => rfl
      | cons c cs => cases h
  | cons b bs ih =>
      cases cs with
      | nil => cases h
      | cons c cs =>
          rw [List.flatMap_cons, List.flatMap_cons] at h
          obtain ⟨hfirst, hrest⟩ := List.append_inj h rfl
          have hbyte := hexPair_inj b.toNat_lt c.toNat_lt hfirst
          rw [UInt8.toNat_inj.mp hbyte, ih hrest]

end Text

namespace Digest

theorem toList_loop_eq (bytes : ByteArray) (i : Nat) (before : List UInt8) :
    ByteArray.toList.loop bytes i before = before.reverse ++ bytes.data.toList.drop i := by
  fun_induction ByteArray.toList.loop bytes i before with
  | case1 i before hi ih =>
      have hlt : i < bytes.data.toList.length := by simpa using hi
      rw [ih, List.drop_eq_getElem_cons hlt]
      simp [ByteArray.get!, hi]
  | case2 i before hi =>
      rw [List.drop_eq_nil_of_le (by simpa using hi), List.append_nil]

/-- Texts are told apart by their bytes. -/
theorem toUTF8_toList_inj {s t : String} (h : s.toUTF8.toList = t.toUTF8.toList) : s = t := by
  simp only [ByteArray.toList, toList_loop_eq, List.reverse_nil, List.nil_append,
    List.drop_zero] at h
  exact String.toByteArray_inj.mp (ByteArray.ext (Array.toList_inj.mp h))

/-- Two texts have one digest only if they are equal or a collision of the hash. -/
theorem eq_or_collision {s t : String} (h : hex s = hex t) :
    s = t ∨ s.toUTF8.toList ≠ t.toUTF8.toList ∧
      sha256 s.toUTF8.toList = sha256 t.toUTF8.toList := by
  have hbytes : sha256 s.toUTF8.toList = sha256 t.toUTF8.toList :=
    flatMap_hexPair_inj (String.ofList_injective h)
  by_cases hsame : s.toUTF8.toList = t.toUTF8.toList
  · exact .inl (toUTF8_toList_inj hsame)
  · exact .inr ⟨hsame, hbytes⟩

end Digest

namespace Graph

variable {g g' : Graph}

/-- Two graphs look the same: they have as many nodes, which look the same in the order of their
keys, and edges between the same positions in that order, drawn one after the other alike. -/
structure LooksLike (g g' : Graph) : Prop where
  nodes : g.nodes.length = g'.nodes.length
  looks : g.looks = g'.looks
  joints : g.joints = g'.joints

theorem LooksLike.of_looks (hlooks : g.looks = g'.looks) (hjoints : g.joints = g'.joints) :
    g.LooksLike g' :=
  ⟨by rw [← length_looks, ← length_looks, hlooks], hlooks, hjoints⟩

/-- Every end of an edge stands at its position in the order of the keys. -/
theorem getElem?_sorted_idxOf (hinside : g.FlowsInside) {e : Flow} (he : e ∈ g.edges) :
    g.sorted[g.sorted.idxOf e.1]? = some e.1 ∧ g.sorted[g.sorted.idxOf e.2]? = some e.2 := by
  obtain ⟨hsource, htarget⟩ := hinside e (List.mem_append_left _ he)
  exact ⟨List.getElem?_idxOf (mem_sorted.mpr hsource), List.getElem?_idxOf (mem_sorted.mpr htarget)⟩

end Graph

namespace Module

variable {m m' : Module} {g g' : Graph} {b b' : Block}

/-- Whatever is said about their nodes, the graphs of modules can be drawn, and every end of an edge
has its position in the drawing. If two drawings are equal, then the graphs look the same; if two
fingerprints are equal, then so do the graphs, or the drawings are a collision of the hash. -/
theorem Charts.drawing_tells (h : m.Charts g b) (h' : m'.Charts g' b')
    (effects effects' : Array Effect) (spans spans' : Option (List Span)) :
    (∀ e ∈ g.edges,
      g.sorted[g.sorted.idxOf e.1]? = some e.1 ∧ g.sorted[g.sorted.idxOf e.2]? = some e.2) ∧
    ∃ text text', Analysis.draw ⟨g, effects, spans⟩ = .ok text ∧
      Analysis.draw ⟨g', effects', spans'⟩ = .ok text' ∧
      (text = text' → g.LooksLike g') ∧
      (Analysis.fingerprint ⟨g, effects, spans⟩ = Analysis.fingerprint ⟨g', effects', spans'⟩ →
        g.LooksLike g' ∨ text.toUTF8.toList ≠ text'.toUTF8.toList ∧
          Digest.sha256 text.toUTF8.toList = Digest.sha256 text'.toUTF8.toList) := by
  obtain ⟨globals, hdepicts⟩ := h.exists_depicts
  obtain ⟨globals', hdepicts'⟩ := h'.exists_depicts
  have hdraw := Analysis.draw_eq ⟨g, effects, spans⟩ hdepicts.inside
  have hdraw' := Analysis.draw_eq ⟨g', effects', spans'⟩ hdepicts'.inside
  refine ⟨fun e he => Graph.getElem?_sorted_idxOf hdepicts.inside he, _, _, hdraw, hdraw', ?_⟩
  obtain ⟨hlooks, hjoints⟩ := Analysis.read_draw _ hdepicts.inside hdraw
  obtain ⟨hlooks', hjoints'⟩ := Analysis.read_draw _ hdepicts'.inside hdraw'
  have hsame (heq : _ = _) : g.LooksLike g' :=
    .of_looks (hlooks ▸ hlooks' ▸ congrArg Look.nodesIn heq)
      (hjoints ▸ hjoints' ▸ congrArg Look.edgesIn heq)
  refine ⟨hsame, fun hprint => ?_⟩
  rw [Analysis.fingerprint, Analysis.fingerprint, hdraw, hdraw'] at hprint
  exact (Digest.eq_or_collision (Except.ok.inj hprint)).imp_left hsame

/-- A module with two comments. -/
def commenting : Module :=
  ⟨"commenting", [], [], ⟨0, [.simple 1 (.comment "one"), .simple 2 (.comment "two")]⟩, []⟩

/-- A module whose only comment imitates the lines of the two. -/
def imitating : Module :=
  ⟨"imitating", [], [], ⟨0, [.simple 1 (.comment "one\"];\n\t3 [label=\"# two")]⟩, []⟩

/-- No comment gets out of its quotes: the drawings differ, even where the nodes are classified in
one of them. -/
theorem drawing_tells_imitating : commenting.Charts (.ofModule commenting) commenting.body ∧
    imitating.Charts (.ofModule imitating) imitating.body ∧
    ∃ text text', (Analysis.ofGraph (.ofModule commenting)).draw = .ok text ∧
      Analysis.draw ⟨.ofModule imitating, #[.none, .none, .keepIf true], none⟩ = .ok text' ∧
      text ≠ text' := by
  have hcommenting : commenting.Charts (.ofModule commenting) commenting.body := .module
  have himitating : imitating.Charts (.ofModule imitating) imitating.body := .module
  obtain ⟨-, text, text', hdraw, hdraw', hsame, -⟩ :=
    hcommenting.drawing_tells himitating #[] #[.none, .none, .keepIf true] none none
  refine ⟨hcommenting, himitating, text, text', hdraw, hdraw', fun heq => ?_⟩
  exact absurd (hsame heq).nodes (by decide)

end Module

end ControlFlow
