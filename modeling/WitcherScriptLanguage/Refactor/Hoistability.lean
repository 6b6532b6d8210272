import WitcherScriptLanguage.Refactor.BodyModel
import WitcherScriptLanguage.Refactor.MoveValue

/-!
# What a verified move leaves unchecked

`value_hoistability` compares the operands of a value with what the window writes. The move is
free of change when, beside that, the window leaves the declared variable alone, the value assigns
nothing that the window touches, and the check sees all that the value reads and the window
assigns.
-/

namespace WitcherScriptLanguage.Body

open Library

mutual

lemma Expr.occurrences_of_mem : ∀ {e e' : Expr}, e' ∈ e.subexprs → e'.occurrences ⊆ e.occurrences
  | .constant _, e', h => by
    rw [List.mem_singleton.mp h]
    exact List.Subset.refl _
  | .path p, e', h => by
    rcases List.mem_cons.mp h with rfl | h
    · exact List.Subset.refl _
    · exact Path.occurrences_of_mem h
  | .operator _ operands, e', h => by
    rcases List.mem_cons.mp h with rfl | h
    · exact List.Subset.refl _
    · exact Exprs.occurrences_of_mem h
  | .shortCircuit _ left right, e', h => by
    rcases List.mem_cons.mp h with rfl | h
    · exact List.Subset.refl _
    · rcases List.mem_append.mp h with h | h
      · exact List.subset_append_of_subset_left _ (Expr.occurrences_of_mem h)
      · exact List.subset_append_of_subset_right _ (Expr.occurrences_of_mem h)
  | .ternary cond onTrue onFalse, e', h => by
    rcases List.mem_cons.mp h with rfl | h
    · exact List.Subset.refl _
    · rcases List.mem_append.mp h with h | h
      · exact List.subset_append_of_subset_left _ (Expr.occurrences_of_mem h)
      · refine List.subset_append_of_subset_right _ ?_
        rcases List.mem_append.mp h with h | h
        · exact List.subset_append_of_subset_left _ (Expr.occurrences_of_mem h)
        · exact List.subset_append_of_subset_right _ (Expr.occurrences_of_mem h)
  | .create _ operands, e', h => by
    rcases List.mem_cons.mp h with rfl | h
    · exact List.Subset.refl _
    · exact Exprs.occurrences_of_mem h
  | .call _ callee args, e', h => by
    rcases List.mem_cons.mp h with rfl | h
    · exact List.Subset.refl _
    · rcases List.mem_append.mp h with h | h
      · exact List.subset_append_of_subset_left _ (Path.occurrences_of_mem h)
      · exact List.subset_append_of_subset_right _ (Exprs.occurrences_of_mem h)
  | .assign _ left right, e', h => by
    rcases List.mem_cons.mp h with rfl | h
    · exact List.Subset.refl _
    · rcases List.mem_append.mp h with h | h
      · exact List.subset_append_of_subset_left _ (Path.occurrences_of_mem h)
      · exact List.subset_append_of_subset_right _ (Expr.occurrences_of_mem h)

lemma Path.occurrences_of_mem : ∀ {p : Path} {e' : Expr}, e' ∈ p.subexprs →
    e'.occurrences ⊆ p.occurrences
  | .ident _, e', h => by cases h
  | .root e, e', h => Expr.occurrences_of_mem h
  | .member base _, e', h => List.subset_append_of_subset_left _ (Path.occurrences_of_mem h)
  | .array accessor index, e', h => by
    rcases List.mem_append.mp h with h | h
    · exact List.subset_append_of_subset_left _ (Path.occurrences_of_mem h)
    · exact List.subset_append_of_subset_right _ (Expr.occurrences_of_mem h)
  | .nested p, e', h => Path.occurrences_of_mem (p := p) h

lemma Exprs.occurrences_of_mem : ∀ {es : Exprs} {e' : Expr}, e' ∈ es.subexprs →
    e'.occurrences ⊆ es.occurrences
  | .nil, e', h => by cases h
  | .cons e rest, e', h => by
    rcases List.mem_append.mp h with h | h
    · exact List.subset_append_of_subset_left _ (Expr.occurrences_of_mem h)
    · exact List.subset_append_of_subset_right _ (Exprs.occurrences_of_mem h)

end

/-- What a step changes is named in it, or it is a call and the cell is shared. -/
lemma Expr.occurrence_of_changes {e : Expr} {c : Cell} (h : e.Changes c) :
    (∃ o ∈ e.occurrences, o.cell = some c) ∨ isCall e = true ∧ ∃ s, c = .shared s := by
  cases e with
  | assign op left right =>
    obtain ⟨o, ho, hc⟩ := Path.exists_occurrence h
    exact .inl ⟨o, List.mem_append_left _ ho, hc⟩
  | call start callee args =>
    cases c with
    | shared s => exact .inr ⟨rfl, s, rfl⟩
    | var name =>
      obtain ⟨p, hp, hc⟩ := List.mem_flatMap.mp h
      obtain ⟨o, ho, hcell⟩ := Path.exists_occurrence hc
      rcases List.mem_cons.mp hp with rfl | hp
      · exact .inl ⟨o, List.mem_append_left _ ho, hcell⟩
      · exact .inl ⟨o, List.mem_append_right _ (Exprs.mem_occurrences args hp ho), hcell⟩
  | _ => exact h.elim

/-- Apart from calls, an expression touches what it names. -/
lemma Expr.occurrence_of_touched {e : Expr} {c : Cell} (h : c ∈ e.touched) :
    (∃ o ∈ e.occurrences, o.cell = some c) ∨ hasCall e.subexprs = true ∧ ∃ s, c = .shared s := by
  rcases h with h | ⟨e', he', hchanges⟩
  · exact .inl h
  · rcases e'.occurrence_of_changes hchanges with ⟨o, ho, hc⟩ | ⟨hcall, hshared⟩
    · exact .inl ⟨o, Expr.occurrences_of_mem he' ho, hc⟩
    · exact .inr ⟨List.any_eq_true.mpr ⟨e', he', hcall⟩, hshared⟩

/-- The declaration of a local by its name, or of a field. -/
def BodyModel.keyOf (m : BodyModel) (decls : String → Declared) : Cell → Option DefKey
  | .var name => some (m.localKey (decls name))
  | .shared (.field key) => some key
  | .shared .world => none

/-- The identifier resolves to what it denotes. -/
def BodyModel.Resolves (m : BodyModel) (decls : String → Declared) (o : Occurrence) : Prop :=
  ∀ c ∈ o.cell, ∃ key kind, m.keyOf decls c = some key ∧
    m.definitionAt o.start = some (key, kind) ∧ BodyModel.isStored kind = true

/-- The write sites of an assignment to the path are at the identifier. -/
def Path.SiteAt (p : Path) (o : Occurrence) : Prop :=
  p.writeTarget = some o ∨ p.lvalueBaseIdent = some o

/-- What the check does not look at. -/
structure MovesCleanly (m : BodyModel) (decls : String → Declared) (x : Declared) (value : Expr)
    (window : List Stmt) : Prop where
  /-- The window does not mention the variable. -/
  unmentioned : ∀ stmt ∈ blockSubstmts window, ∀ e ∈ stmt.ownExprs, ∀ o ∈ e.occurrences,
    o.cell ≠ some x.cell
  undeclared : ∀ d ∈ windowNames window, d.name ≠ x.name
  /-- The window does not touch what the value itself changes. -/
  outputs : ∀ e ∈ value.subexprs, ∀ c, e.Changes c → c ∉ touchedBy window
  /-- An assignment reaches an operand of the value only at a write site. -/
  sites : ∀ op left right, .assign op left right ∈ windowExprs window → ∀ o ∈ left.steps,
    ∀ c ∈ o.cell, c ∈ value.touched → left.SiteAt o
  /-- Resolution finds what the value reads and the window assigns. -/
  resolved : ∀ o ∈ value.occurrences, m.Resolves decls o
  sitesResolved : ∀ op left right, .assign op left right ∈ windowExprs window →
    ∀ o, left.SiteAt o → m.Resolves decls o
  /-- The value names the variable and the locals of the window only where they are what it
  denotes. -/
  declared : ∀ d ∈ x :: windowNames window, ∀ o ∈ value.occurrences, o.cell = some d.cell →
    decls d.name = d

section Verified

variable {m : BodyModel} {decls : String → Declared} {x : Declared} {value : Expr}
  {window : List Stmt}

lemma mem_windowExprs {e e' : Expr} {stmt : Stmt} (hstmt : stmt ∈ blockSubstmts window)
    (he : e ∈ stmt.ownExprs) (he' : e' ∈ e.subexprs) : e' ∈ windowExprs window :=
  List.mem_flatMap.mpr ⟨stmt, hstmt, List.mem_flatMap.mpr ⟨e, he, he'⟩⟩

/-- What the value names is an operand. -/
lemma mem_referencedDefs {o : Occurrence} {c : Cell} (ho : o ∈ value.occurrences)
    (hc : o.cell = some c) (hresolves : m.Resolves decls o) :
    ∃ key, m.keyOf decls c = some key ∧ key ∈ (m.referencedDefs value).map Prod.fst := by
  obtain ⟨key, kind, hkey, hat, hstored⟩ := hresolves c hc
  refine ⟨key, hkey, List.mem_map.mpr ⟨(key, kind), List.mem_filterMap.mpr ⟨o, ho, ?_⟩, rfl⟩⟩
  rw [hat, Option.filter_some, if_pos hstored]

lemma mem_writeSites (op : String) {left : Path} (right : Expr) {o : Occurrence}
    (h : left.SiteAt o) (htarget : left.writeTarget.isSome = true) :
    ∃ kind, ⟨kind, o⟩ ∈ m.writeSites (.assign op left right) := by
  obtain ⟨target, hsome⟩ := Option.isSome_iff_exists.mp htarget
  rw [BodyModel.writeSites, hsome]
  by_cases heq : o = target
  · rw [heq]
    exact ⟨.assignTarget, List.mem_cons_self⟩
  · have hbase : left.lvalueBaseIdent = some o := by
      rcases h with h | h
      · rw [hsome] at h
        cases h
        exact absurd rfl heq
      · exact h
    refine ⟨.assignBase, List.mem_cons_of_mem _ (List.mem_map.mpr ⟨o, ?_, rfl⟩)⟩
    rw [hbase]
    exact List.mem_filter.mpr ⟨List.mem_singleton_self o, decide_eq_true heq⟩

lemma isSome_writeTarget {p : Path} {o : Occurrence} (h : p.lvalueBaseIdent = some o) :
    p.writeTarget.isSome = true := by
  induction p using Path.steps_induction with
  | ident o => rfl
  | member base o ih => rfl
  | array accessor index ih => exact ih h
  | nested p ih => exact ih h
  | root e => cases h

/-- A write site that resolves is found. -/
lemma operandWrittenIn_of_site {op : String} {left : Path} {right : Expr} {o : Occurrence}
    {key : DefKey} {kind : SymbolKind} (he : .assign op left right ∈ windowExprs window)
    (hsite : left.SiteAt o) (hat : m.definitionAt o.start = some (key, kind))
    (hkey : key ∈ (m.referencedDefs value).map Prod.fst) :
    m.operandWrittenIn value window = true := by
  have htarget : left.writeTarget.isSome = true := by
    rcases hsite with h | h
    · rw [h]
      rfl
    · exact isSome_writeTarget h
  obtain ⟨siteKind, hmem⟩ := mem_writeSites (m := m) op right hsite htarget
  refine List.any_eq_true.mpr ⟨(key, ⟨siteKind, o⟩), ?_, List.contains_iff_mem.mpr hkey⟩
  refine List.mem_filterMap.mpr ⟨⟨siteKind, o⟩, List.mem_flatMap.mpr ⟨_, he, hmem⟩, ?_⟩
  rw [hat]
  rfl

lemma exists_operand (hclean : MovesCleanly m decls x value window) {c : Cell}
    (h : ∃ o ∈ value.occurrences, o.cell = some c) :
    ∃ key, m.keyOf decls c = some key ∧ key ∈ (m.referencedDefs value).map Prod.fst := by
  obtain ⟨o, ho, hc⟩ := h
  exact mem_referencedDefs ho hc (hclean.resolved o ho)

lemma MovesCleanly.self (hclean : MovesCleanly m decls x value window)
    (htarget : ((m.referencedDefs value).map Prod.fst).contains (m.localKey x) = false) :
    x.cell ∉ value.touched := by
  intro htouched
  rcases value.occurrence_of_touched htouched with ⟨o, ho, hc⟩ | ⟨-, s, hs⟩
  · obtain ⟨key, hkey, hmem⟩ := exists_operand hclean ⟨o, ho, hc⟩
    have hx := hclean.declared x List.mem_cons_self o ho hc
    rw [Declared.cell, BodyModel.keyOf, hx] at hkey
    cases hkey
    rw [List.contains_iff_mem.mpr hmem] at htarget
    cases htarget
  · cases hs

lemma MovesCleanly.notTouched (hclean : MovesCleanly m decls x value window) :
    x.cell ∉ touchedBy window := by
  have hexpr : ∀ stmt ∈ blockSubstmts window, ∀ e ∈ stmt.ownExprs, x.cell ∉ e.touched := by
    intro stmt hstmt e he htouched
    rcases e.occurrence_of_touched htouched with ⟨o, ho, hc⟩ | ⟨-, s, hs⟩
    · exact hclean.unmentioned stmt hstmt e he o ho hc
    · cases hs
  rintro (⟨stmt, hstmt, e, he, htouched⟩ | ⟨stmt, hstmt, ⟨e, he, hchanged⟩ | hname | ⟨-, s, hs⟩⟩)
  · exact hexpr stmt hstmt e he htouched
  · exact hexpr stmt hstmt e he (e.changed_subset hchanged)
  · obtain ⟨d, hd, hcell⟩ := hname
    refine hclean.undeclared d (List.mem_flatMap.mpr ⟨stmt, hstmt, hd⟩) ?_
    exact Cell.var.inj hcell
  · cases hs

/-- The window changes no operand when it has no calls. -/
lemma MovesCleanly.inputs (hclean : MovesCleanly m decls x value window)
    (hdeclared : ∀ key ∈ (m.referencedDefs value).map Prod.fst, key.1 = m.uri →
      ∀ d ∈ windowNames window, d.start ≠ key.2.start)
    (hwritten : m.operandWrittenIn value window = false)
    (hquiet : hasCall (windowExprs window) = false)
    (hdelete : ∀ stmt ∈ blockSubstmts window, stmt.isDelete = true →
      ∀ s, Cell.shared s ∉ value.touched)
    {c : Cell} (hc : c ∈ changedBy window) (hnamed : ∃ o ∈ value.occurrences, o.cell = some c) :
    False := by
  obtain ⟨key, hkey, hmem⟩ := exists_operand hclean hnamed
  have htouched : c ∈ value.touched := .inl hnamed
  obtain ⟨stmt, hstmt, ⟨e, he, e', he', hchanges⟩ | ⟨d, hd, rfl⟩ | ⟨hisDelete, s, rfl⟩⟩ := hc
  · have hin := mem_windowExprs hstmt he he'
    cases e' with
    | assign op left right =>
      obtain ⟨o, ho, hcell⟩ := Path.exists_step hchanges
      have hsite := hclean.sites op left right hin o ho c hcell htouched
      obtain ⟨key', kind, hkey', hat, -⟩ :=
        hclean.sitesResolved op left right hin o hsite c hcell
      obtain rfl := Option.some.inj (hkey.symm.trans hkey')
      rw [operandWrittenIn_of_site hin hsite hat hmem] at hwritten
      cases hwritten
    | call start callee args =>
      rw [hasCall, List.any_eq_true.mpr ⟨_, hin, rfl⟩] at hquiet
      cases hquiet
    | _ => exact hchanges.elim
  · have hd' : d ∈ windowNames window := List.mem_flatMap.mpr ⟨stmt, hstmt, hd⟩
    obtain ⟨o, ho, hcell⟩ := hnamed
    have hdecl := hclean.declared d (List.mem_cons_of_mem _ hd') o ho hcell
    rw [Declared.cell, BodyModel.keyOf, hdecl] at hkey
    cases hkey
    exact hdeclared _ hmem rfl d hd' rfl
  · exact hdelete stmt hstmt hisDelete s htouched

/-- A verified move that the rest of the condition holds for changes nothing. -/
theorem independent_of_verified
    (h : m.valueHoistability value window x = some .verified)
    (hclean : MovesCleanly m decls x value window)
    (hdelete : ∀ stmt ∈ blockSubstmts window, stmt.isDelete = true →
      ∀ s, Cell.shared s ∉ value.touched) : Independent x value window := by
  unfold BodyModel.valueHoistability at h
  dsimp only at h
  split_ifs at h with htarget hdeclared hwritten heffect hempty hcalls
  · -- A call moves over nothing.
    rw [List.isEmpty_iff] at hempty
    subst hempty
    refine ⟨hclean.self (Bool.eq_false_iff.mpr htarget), hclean.notTouched, ?_, ?_⟩
    · rintro c ⟨e, he, hchanges⟩
      exact hclean.outputs e he c hchanges
    · rintro c ⟨stmt, hstmt, -⟩
      cases hstmt
  · cases h
  · refine ⟨hclean.self (Bool.eq_false_iff.mpr htarget), hclean.notTouched, ?_, ?_⟩
    · rintro c ⟨e, he, hchanges⟩
      exact hclean.outputs e he c hchanges
    · intro c hc htouched
      rcases value.occurrence_of_touched htouched with hnamed | ⟨hcall, -⟩
      · have hoperands : ((m.referencedDefs value).map Prod.fst).isEmpty = false := by
          obtain ⟨key, -, hmem⟩ := exists_operand hclean hnamed
          rw [List.isEmpty_eq_false_iff]
          exact List.ne_nil_of_mem hmem
        rw [hoperands, Bool.or_false, Bool.not_eq_true'] at hcalls
        refine hclean.inputs (fun key hkey huri d hd hstart => ?_) (Bool.eq_false_iff.mpr hwritten)
          hcalls hdelete hc hnamed
        refine hdeclared (List.any_eq_true.mpr ⟨key, hkey, ?_⟩)
        rw [decide_eq_true huri, Bool.true_and, List.any_eq_true]
        exact ⟨d, hd, decide_eq_true hstart⟩
      · exact heffect hcall
  · cases h

end Verified

end WitcherScriptLanguage.Body
