import WitcherScriptLanguage.Refactor.Effects

/-!
# Moving a value over statements

A declaration with a value, and the same declaration with the value assigned behind a window of
statements, leave the same store when the window and the value leave each other's cells and the
declared variable alone.
-/

namespace WitcherScriptLanguage.Body

open Library StoreM

def Expr.changed (e : Expr) : Set Cell := {c | ∃ e' ∈ e.subexprs, e'.Changes c}

def Expr.touched (e : Expr) : Set Cell :=
  {c | (∃ o ∈ e.occurrences, o.cell = some c) ∨ c ∈ e.changed}

lemma Expr.changed_subset (e : Expr) : e.changed ⊆ e.touched := fun _ hc => .inr hc

lemma Expr.within (e : Expr) : Within e.touched e.changed e.occurrences e.subexprs where
  cells o ho _ hc := .inl ⟨o, ho, hc⟩
  changes e' he _ hc := ⟨e', he, hc⟩

def changedBy (stmts : List Stmt) : Set Cell :=
  {c | ∃ stmt ∈ blockSubstmts stmts, (∃ e ∈ stmt.ownExprs, c ∈ e.changed) ∨
    (∃ d ∈ stmt.ownNames, d.cell = c) ∨ stmt.isDelete = true ∧ ∃ s, c = .shared s}

def touchedBy (stmts : List Stmt) : Set Cell :=
  {c | (∃ stmt ∈ blockSubstmts stmts, ∃ e ∈ stmt.ownExprs, c ∈ e.touched) ∨
    c ∈ changedBy stmts}

lemma changedBy_subset (stmts : List Stmt) : changedBy stmts ⊆ touchedBy stmts :=
  fun _ hc => .inr hc

lemma stmtsWithin (stmts : List Stmt) :
    StmtsWithin (touchedBy stmts) (changedBy stmts) (blockSubstmts stmts) := by
  intro stmt hstmt
  refine ⟨fun e he => ⟨fun o ho c hc => ?_, fun e' he' c hc => ?_⟩, fun d hd => ?_,
    fun hdelete s => ?_⟩
  · exact .inl ⟨stmt, hstmt, e, he, .inl ⟨o, ho, hc⟩⟩
  · exact ⟨stmt, hstmt, .inl ⟨e, he, e', he', hc⟩⟩
  · exact ⟨stmt, hstmt, .inr (.inl ⟨d, hd, rfl⟩)⟩
  · exact ⟨stmt, hstmt, .inr (.inr ⟨hdelete, s, rfl⟩)⟩

section Moving

variable {V : Type} {I : Interpretation V} {n : Nat} {x : Declared} {value : Expr}
  {window rest : List Stmt} {type : String}

/-- The declaration of a variable with a value touches the variable and what the value does. -/
lemma footprint_init (I : Interpretation V) (x : Declared) (type : String) (value : Expr) :
    Footprint (insert x.cell value.touched) (insert x.cell value.changed)
      (declare I [x] type (some value)) := by
  refine footprint_declare (Set.insert_subset_insert value.changed_subset) ?_ type (some value) ?_
  · intro d hd
    rw [List.mem_singleton.mp hd]
    exact Set.mem_insert _ _
  · exact ⟨fun o ho c hc => .inr (value.within.cells o ho c hc),
      fun e he c hc => .inr (value.within.changes e he c hc)⟩

lemma footprint_default (I : Interpretation V) (x : Declared) (type : String) :
    Footprint {x.cell} {x.cell} (declare I [x] type none) := by
  refine footprint_setAll (Set.Subset.refl _) ?_ _
  intro d hd
  rw [List.mem_singleton.mp hd]
  exact Set.mem_singleton _

lemma footprint_window (I : Interpretation V) (n : Nat) (window : List Stmt) :
    Footprint (touchedBy window) (changedBy window) (runBlock I n window) :=
  footprint_runBlock n (changedBy_subset window) window (stmtsWithin window)

/-- What the variable held before does not matter where the value does not look at it. -/
lemma after_init_default (hself : x.cell ∉ value.touched) (s : State V) :
    after (declare I [x] type (some value)) (after (declare I [x] type none) s) =
      after (declare I [x] type (some value)) s := by
  have hvalue := footprint_eval (I := I) value.changed_subset value value.within
  have hagree : Set.EqOn (after (declare I [x] type none) s) s value.touched := by
    refine (footprint_default I x type).eqOn_touched ?_ s
    rintro c rfl
    exact hself
  have hresult := hvalue.result _ _ hagree
  have hafter := hvalue.after _ _ hagree
  funext c
  by_cases hc : c = x.cell
  · -- Both runs end with the assignment of the same value.
    have hset : ∀ t : State V, after (declare I [x] type (some value)) t c =
        result (value.eval I) t := fun t => if_pos (List.mem_singleton.mpr hc)
    rw [hset, hset, hresult]
  · have hkept : ∀ t : State V, after (declare I [x] type (some value)) t c =
        after (value.eval I) t c := fun t => if_neg fun hmem => hc (List.mem_singleton.mp hmem)
    rw [hkept, hkept]
    by_cases htouched : c ∈ value.touched
    · exact hafter htouched
    · have hout : c ∈ value.changedᶜ := fun hw => htouched (value.changed_subset hw)
      rw [hvalue.frame _ hout, hvalue.frame _ hout]
      exact if_neg fun hmem => hc (List.mem_singleton.mp hmem)

/-- The window and the value leave each other alone. -/
structure Independent (x : Declared) (value : Expr) (window : List Stmt) : Prop where
  self : x.cell ∉ value.touched
  unmentioned : x.cell ∉ touchedBy window
  outputs : ∀ c ∈ value.changed, c ∉ touchedBy window
  inputs : ∀ c ∈ changedBy window, c ∉ value.touched

/-- The window does alike with the value in front of it. -/
theorem Independent.window_alike (h : Independent x value window) (type : String) (s : State V) :
    result (runBlock I n window) (after (declare I [x] type (some value)) s) =
        result (runBlock I n window) (after (declare I [x] type none) s) ∧
      after (runBlock I n window) (after (declare I [x] type (some value)) s) =
        after (declare I [x] type (some value))
          (after (runBlock I n window) (after (declare I [x] type none) s)) := by
  have hinit := footprint_init I x type value
  have hdefault := footprint_default I x type
  have hwindow := footprint_window I n window
  have hapart : ∀ c ∈ insert x.cell value.changed, c ∉ touchedBy window := by
    rintro c (rfl | hc)
    · exact h.unmentioned
    · exact h.outputs c hc
  have hapart' : ∀ c ∈ changedBy window, c ∉ insert x.cell value.touched := by
    rintro c hc (rfl | hin)
    · exact h.unmentioned (changedBy_subset window hc)
    · exact h.inputs c hc hin
  have hdefaultApart : ∀ c ∈ ({x.cell} : Set Cell), c ∉ touchedBy window := by
    rintro c rfl
    exact h.unmentioned
  have hdefaultApart' : ∀ c ∈ changedBy window, c ∉ ({x.cell} : Set Cell) := by
    rintro c hc rfl
    exact h.unmentioned (changedBy_subset window hc)
  refine ⟨?_, ?_⟩
  · rw [hinit.result_after hwindow hapart, hdefault.result_after hwindow hdefaultApart]
  · calc after (runBlock I n window) (after (declare I [x] type (some value)) s)
        = after (declare I [x] type (some value)) (after (runBlock I n window) s) :=
          hinit.after_comm hwindow hapart hapart' s
      _ = after (declare I [x] type (some value))
            (after (declare I [x] type none) (after (runBlock I n window) s)) :=
          (after_init_default h.self _).symm
      _ = _ := by rw [hdefault.after_comm hwindow hdefaultApart hdefaultApart' s]

end Moving

end WitcherScriptLanguage.Body
