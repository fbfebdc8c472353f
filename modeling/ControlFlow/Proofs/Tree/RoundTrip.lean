import ControlFlow.CommandLine.Run
import ControlFlow.Proofs.Pruning.Convergence
import ControlFlow.Proofs.Tree.Stored
import Mathlib

/-! # Modules that were read can be written and read again

A module that was read is read again from its own texts. So is one that was pruned: statements only
go from the arrays of its document, so that nothing in it nests any deeper.
-/

namespace ControlFlow

/-! ## Documents with fewer items -/

namespace Document

/-- A document is another one without some items of its arrays, at any depth. -/
inductive Trimmed : Document → Document → Prop where
  | same (d : Document) : Trimmed d d
  | array {es ds : List Document} : List.SublistForall₂ Trimmed es ds →
      Trimmed (.array es) (.array ds)
  | object {ns ms : List (String × Document)} : ns.map Prod.fst = ms.map Prod.fst →
      List.Forall₂ Trimmed (ns.map Prod.snd) (ms.map Prod.snd) → Trimmed (.object ns) (.object ms)

variable {ι : Type} {schema : Schema ι} {d e : Document}

theorem exists_of_sublistForall₂ {α β : Type} {R : α → β → Prop} {xs : List α} {ys : List β}
    (h : List.SublistForall₂ R xs ys) {x : α} (hx : x ∈ xs) : ∃ y ∈ ys, R x y := by
  obtain ⟨zs, hzs, hsublist⟩ := List.sublistForall₂_iff.mp h
  obtain ⟨z, hz, hxz⟩ := exists_of_forall₂_left hzs hx
  exact ⟨z, hsublist.subset hz, hxz⟩

/-- Trimmed documents fill what the whole ones fill. -/
def Closed (holds : Shape ι → Document → Prop) : Prop :=
  ∀ s d e, holds s d → Trimmed e d → holds s e

theorem Closed.slot {holds : Shape ι → Document → Prop} (hclosed : Closed holds) {s : Slot ι}
    (h : s.Holds holds d) (htrim : Trimmed e d) : s.Holds holds e := by
  rcases h with ⟨hnull, rfl⟩ | h
  · cases htrim
    exact .inl ⟨hnull, rfl⟩
  · exact .inr (hclosed _ _ _ h htrim)

theorem Closed.fields {holds : Shape ι → Document → Prop} (hclosed : Closed holds)
    {fields : List (Field ι)} {ns ms : List (String × Document)}
    (h : List.Forall₂ (fun field member => field.Holds holds member) fields ms)
    (hnames : ns.map Prod.fst = ms.map Prod.fst)
    (hvalues : List.Forall₂ Trimmed (ns.map Prod.snd) (ms.map Prod.snd)) :
    List.Forall₂ (fun field member => field.Holds holds member) fields ns := by
  induction h generalizing ns with
  | nil =>
      rw [List.map_eq_nil_iff.mp hnames]
      exact .nil
  | @cons field m fields ms hfirst _ ih =>
      cases ns with
      | nil => cases hnames
      | cons n ns =>
          obtain ⟨hname, hnames⟩ := List.cons.inj hnames
          obtain ⟨hvalue, hvalues⟩ := List.forall₂_cons.mp hvalues
          exact .cons ⟨hname.trans hfirst.name, hclosed.slot hfirst.slot hvalue⟩ (ih hnames hvalues)

/-- Without some items of its arrays, a document still has its shape. -/
theorem Fits.trimmed {inside : Option (Shape ι → Document → Prop)}
    (hinside : ∀ holds, inside = some holds → Closed holds) {s : Shape ι}
    (h : Fits schema inside s d) (htrim : Trimmed e d) : Fits schema inside s e := by
  cases h with
  | flag value =>
      cases htrim
      exact .flag value
  | number hwhole hlow hhigh =>
      cases htrim
      exact .number hwhole hlow hhigh
  | text s =>
      cases htrim
      exact .text s
  | bare hname htag =>
      cases htrim
      exact .bare hname htag
  | sequence hsome hds =>
      cases htrim with
      | same => exact .sequence hsome hds
      | array hitems =>
          refine .sequence hsome fun e he => ?_
          obtain ⟨d, hd, htrim⟩ := exists_of_sublistForall₂ hitems he
          exact hinside _ hsome _ _ _ (hds d hd) htrim
  | record hname hsome hms =>
      cases htrim with
      | same => exact .record hname hsome hms
      | object hnames hvalues =>
          exact .record hname hsome ((hinside _ hsome).fields hms hnames hvalues)
  | tagged hname htag hsome hd =>
      cases htrim with
      | same => exact .tagged hname htag hsome hd
      | @object ns _ hnames hvalues =>
          rcases ns with _ | ⟨n, _ | ⟨n', ns⟩⟩
          · cases hnames
          · cases hnames
            exact .tagged hname htag hsome
              ((hinside _ hsome).slot hd (List.forall₂_cons.mp hvalues).1)
          · cases hnames

theorem Conforms.trimmed {depth : Nat} {s : Shape ι} (h : Conforms schema depth s d)
    (htrim : Trimmed e d) : Conforms schema depth s e := by
  induction depth generalizing s d e with
  | zero =>
      refine Fits.trimmed (fun holds hnone => ?_) h htrim
      cases hnone
  | succ depth ih =>
      refine Fits.trimmed (fun holds hsome => ?_) h htrim
      cases hsome
      exact fun _ _ _ hd htrim => ih hd htrim

/-! ## Trees with fewer statements -/

theorem Trimmed.tagged {name : String} (h : Trimmed e d) :
    Trimmed (tagged name e) (tagged name d) :=
  .object rfl (.cons h .nil)

theorem Trimmed.node (id : TreeId) (h : Trimmed e d) : Trimmed (node id e) (node id d) :=
  .object rfl (.cons (.same _) (.cons h .nil))

theorem Trimmed.block (id : TreeId) {es ds : List Document}
    (h : List.SublistForall₂ Trimmed es ds) :
    Trimmed (blockDocument id es) (blockDocument id ds) :=
  .object rfl (.cons (.same _) (.cons (.array h) .nil))

variable {doomed : Stmt → Bool}

theorem trimmed_else {orElse : Option Block}
    (h : List.SublistForall₂ Trimmed (stmtDocuments (stmtsWithout doomed (elseOf orElse)))
      (stmtDocuments (elseOf orElse))) :
    Trimmed (elseDocument (orElse.map (Block.without doomed))) (elseDocument orElse) := by
  rcases orElse with _ | ⟨eid, orElse⟩
  · exact .same _
  · exact .block eid h

/-- Removal takes items out of the arrays of a document. -/
theorem trimmed_without :
    (∀ s : Stmt, Trimmed (s.without doomed).toDocument s.toDocument) ∧
    (∀ ss, List.SublistForall₂ Trimmed (stmtDocuments (stmtsWithout doomed ss))
      (stmtDocuments ss)) ∧
    ∀ cs, List.SublistForall₂ Trimmed (catchDocuments (catchesWithout doomed cs))
      (catchDocuments cs) := by
  refine tree_induction ?simple ?jump ?block ?while_ ?for_ ?if_ ?try_ ?nil ?cons ?noCatch ?catch_
  case simple => exact fun _ _ => .same _
  case jump => exact fun _ _ => .same _
  case block => exact fun id bid _ ih => .node id (.tagged (.block bid ih))
  case while_ =>
    intro id cond bid body orElse ihbody ihelse
    rw [without_while, Stmt.toDocument_while, Stmt.toDocument_while]
    apply Trimmed.node id ∘ Trimmed.tagged
    exact .object rfl (.cons (.same _) (.cons (.block bid ihbody)
      (.cons (trimmed_else ihelse) .nil)))
  case for_ =>
    intro id var seq bid body ih
    apply Trimmed.node id ∘ Trimmed.tagged
    exact .object rfl (.cons (.same _) (.cons (.same _) (.cons (.block bid ih) .nil)))
  case if_ =>
    intro id cond bid body orElse ihbody ihelse
    rw [without_if, Stmt.toDocument_if, Stmt.toDocument_if]
    apply Trimmed.node id ∘ Trimmed.tagged
    exact .object rfl (.cons (.same _) (.cons (.block bid ihbody)
      (.cons (trimmed_else ihelse) .nil)))
  case try_ =>
    intro id bid body catches ihbody ihcatches
    apply Trimmed.node id ∘ Trimmed.tagged
    exact .object rfl (.cons (.block bid ihbody) (.cons (.array ihcatches) .nil))
  case nil => exact .nil
  case cons =>
    intro s rest ihs ihrest
    rw [stmtsWithout]
    split
    · exact .cons_right ihrest
    · exact .cons ihs ihrest
  case noCatch => exact .nil
  case catch_ =>
    intro id param bid body rest ihbody ihrest
    exact .cons (.object rfl (.cons (.same _) (.cons (.same _) (.cons (.block bid ihbody) .nil))))
      ihrest

theorem trimmed_takeOut (ids : List TreeId) (b : Block) :
    Trimmed (Pruning.takeOut ids b).toDocument b.toDocument :=
  .block b.id (trimmed_without.2.1 b.stmts)

theorem trimmed_setBody {name : String} {pruned : Block} {fs : List Function} {f : Function}
    (hf : fs.find? (fun f => f.name = name) = some f)
    (h : Trimmed pruned.toDocument f.body.toDocument) :
    List.SublistForall₂ Trimmed ((Pruning.setBody name pruned fs).map Function.toDocument)
      (fs.map Function.toDocument) := by
  have hrefl : Std.Refl Trimmed := ⟨.same⟩
  induction fs with
  | nil => cases hf
  | cons g rest ih =>
      by_cases hname : g.name = name
      · rw [List.find?_cons_of_pos (by simpa using hname)] at hf
        cases hf
        rw [Pruning.setBody, if_pos hname]
        exact .cons (.object rfl (.cons (.same _) (.cons (.same _) (.cons h .nil))))
          (List.Sublist.refl _).sublistForall₂
      · rw [List.find?_cons_of_neg (by simpa using hname)] at hf
        rw [Pruning.setBody, if_neg hname]
        exact .cons (.same _) (ih hf)

theorem trimmed_withBody {m : Module} {scope : Option String} {body pruned : Block}
    (hbody : m.bodyOf? scope = some body) (h : Trimmed pruned.toDocument body.toDocument) :
    Trimmed (m.withBody pruned scope).toDocument m.toDocument := by
  cases scope with
  | none =>
      cases hbody
      exact .object rfl (.cons (.same _) (.cons (.same _) (.cons (.same _) (.cons h
        (.cons (.same _) .nil)))))
  | some name =>
      obtain ⟨f, hf, rfl⟩ := Option.map_eq_some_iff.mp hbody
      exact .object rfl (.cons (.same _) (.cons (.same _) (.cons (.same _) (.cons (.same _)
        (.cons (.array (trimmed_setBody hf h)) .nil)))))

end Document

namespace Module

open Document

/-- The document of a module can be written so that it is read again. -/
def Storable (m : Module) : Prop :=
  Conforms TreeForm.schema maxNesting (.form .module) m.toDocument

variable {m p : Module} {text : String} {scope : Option String} {report : Pruning.Report}

theorem storable_of_parse (h : parse text = .ok m) : m.Storable := by
  obtain ⟨d, hread, hm⟩ := exists_of_bind_ok h
  have hconforms := read_ok TreeForm.sound_schema hread
  obtain ⟨m', rfl⟩ := TreeForm.exists_module hconforms
  rw [module?_toDocument] at hm
  cases hm
  exact hconforms

/-- What is printed in any layout, with blanks after it, is read again. -/
theorem Storable.parse_render (h : m.Storable) {l : Layout} (hl : l.Blank) (blanks : List Char)
    (hblanks : ∀ c ∈ blanks, Scan.isBlank c = true) :
    parse (m.toDocument.render l ++ String.ofList blanks) = .ok m := by
  unfold parse
  rw [read_render hl TreeForm.sound_schema h hblanks]
  change orMalformed m.toDocument.module? = _
  rw [module?_toDocument]
  rfl

theorem Storable.parse_compact (h : m.Storable) : parse m.compact = .ok m := by
  have hparse := h.parse_render blank_compact [] nofun
  rwa [String.ofList_nil, String.append_empty] at hparse

theorem Storable.parse_indented (h : m.Storable) : parse m.indented = .ok m := by
  have hparse := h.parse_render blank_indented [] nofun
  rwa [String.ofList_nil, String.append_empty] at hparse

theorem Storable.prune (h : m.Storable) (hp : m.prune scope = .ok (p, report)) : p.Storable := by
  obtain ⟨body, pruned, hbody, rfl, rfl, -⟩ := exists_of_prune hp
  exact h.trimmed (trimmed_withBody hbody (trimmed_takeOut report.removed body))

/-- Whatever text a module was read from, it is read again from its compact text and from its
indented one. What is left of it after pruning is printed as a text from which exactly that is read
again. -/
theorem parse_again (h : parse text = .ok m) :
    parse m.compact = .ok m ∧ parse m.indented = .ok m ∧
      ∀ scope p report, m.prune scope = .ok (p, report) → parse p.indented = .ok p ∧
        ∃ printed, parse printed = .ok p ∧
          ∀ options : CommandLine.Options, options.stage = .prune → options.function = scope →
            CommandLine.outcome options (.ok text) =
              match options.output with
              | none => ⟨0, printed, CommandLine.progressText options m, none⟩
              | some path =>
                  ⟨0, "", CommandLine.progressText options m, some (path, printed)⟩ := by
  have hstorable := storable_of_parse h
  refine ⟨hstorable.parse_compact, hstorable.parse_indented, ?_⟩
  intro scope p report hp
  have hpruned := hstorable.prune hp
  refine ⟨hpruned.parse_indented, p.indented ++ "\n", ?_, ?_⟩
  · refine hpruned.parse_render blank_indented ['\n'] fun c hc => ?_
    rw [List.mem_singleton.mp hc]
    rfl
  · rintro options hstage rfl
    have htext : CommandLine.stageText m options.function .prune = .ok p.indented := by
      unfold CommandLine.stageText
      rw [hp]
      rfl
    cases houtput : options.output <;>
      simp only [CommandLine.outcome, h, hstage, htext, houtput]

/-- A text with the members in another order, one that is not known, one that is left out, a variant
without payload as an object, and structures as arrays. -/
def reordered : String :=
  "\x7b\"body\":[1,[\x7b\"kind\":\x7b\"yield\":null\x7d,\"id\":2\x7d," ++
    "[3,\x7b\"expr\":[4,\x7b\"literal\":\x7b\"bool\":true\x7d\x7d]\x7d]]]," ++
    "\"globals\":[],\"unit\":7,\"name\":\"m\",\"decls\":[]\x7d"

/-- A statement that stays and one that is not used. -/
def idling : List Stmt := [.simple 2 .yield, .simple 3 (.expr (.literal 4 (.bool true)))]

set_option maxRecDepth 10000 in
theorem parse_reordered : parse reordered = .ok (ofStmts idling) := by
  unfold parse Document.read
  generalize hchars : reordered.toList = chars
  cbv at hchars
  subst hchars
  rfl

theorem parse_again_reordered :
    parse reordered = .ok (ofStmts idling) ∧ parse (ofStmts idling).compact = .ok (ofStmts idling) ∧
      (ofStmts idling).prune none = .ok (ofStmts [.simple 2 .yield], ⟨[3], 2⟩) ∧
      parse (ofStmts [.simple 2 .yield]).indented = .ok (ofStmts [.simple 2 .yield]) := by
  have hprune : (ofStmts idling).prune none = .ok (ofStmts [.simple 2 .yield], ⟨[3], 2⟩) := by cbv
  obtain ⟨hcompact, -, hpruned⟩ := parse_again parse_reordered
  exact ⟨parse_reordered, hcompact, hprune, (hpruned _ _ _ hprune).1⟩

end Module

end ControlFlow
