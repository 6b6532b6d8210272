import WitcherScriptLanguage.Refactor.SplitDeclaration

/-!
# Joining a declaration

The value of the first assignment to a variable moves up to its declaration in the same block, and
the statement of the assignment is deleted (`joinable_assignment` in `resolve/body_model/mod.rs`,
`resolve/join_split_decl.rs`). The check takes for the first assignment the first one in the text
that stands in an expression statement, and it does not ask for more of that statement.
-/

namespace WitcherScriptLanguage.Body

open Library StoreM

/-- The identifier that is the whole path (`unwrap_nested`). -/
def Path.wholeIdent : Path → Option Occurrence
  | .ident o => some o
  | .nested p => p.wholeIdent
  | _ => none

/-- `x = ...` where `x` is the whole left side: the value before is overwritten, not read. -/
def Expr.wholeValueWrite : Expr → Option Occurrence
  | .assign op left _ => if op = "=" then left.wholeIdent else none
  | _ => none

def Expr.readsOf (x : Declared) (e : Expr) : List Occurrence :=
  e.occurrences.filter fun o =>
    o.cell = some x.cell && !(e.subexprs.filterMap Expr.wholeValueWrite).contains o

def readsIn (x : Declared) (window : List Stmt) : List Occurrence :=
  (blockSubstmts window).flatMap fun stmt => stmt.ownExprs.flatMap (Expr.readsOf x)

/-- A write of a local, with the value that it stores when it is a plain assignment. -/
structure Definition where
  site : Occurrence
  value : Option Expr

/-- A compound assignment folds in the value before. -/
def Expr.directAssignValue : Expr → WriteKind → Option Expr
  | .assign op _ right, .assignTarget => if op = "=" then some right else none
  | _, _ => none

structure JoinTarget where
  value : Expr
  /-- The position of the assignment in the block. -/
  stmt : Nat
  confidence : Confidence

namespace BodyModel

variable (m : BodyModel)

def definitions (x : Declared) (e : Expr) : List Definition :=
  e.subexprs.flatMap fun e' => ((m.writeSites e').filter fun site =>
    (m.definitionAt site.node.start).map Prod.fst = some (m.localKey x)).map fun site =>
      ⟨site.node, e'.directAssignValue site.kind⟩

/-- The definitions with a statement to delete. -/
def definitionsOf (x : Declared) : Stmt → List Definition
  | .expr e => m.definitions x e
  | _ => []

/-- Definitions that no expression statement contains sort behind all others. -/
def firstDefinition (x : Declared) (body : Stmt) : Option Definition :=
  (body.substmts.flatMap (m.definitionsOf x)).head?

/-- The value of the first definition, and its statement when that stands in the block. -/
def firstAssignment (x : Declared) (body : Stmt) (block : List Stmt) : Option (Expr × Nat) := do
  let first ← m.firstDefinition x body
  let value ← first.value
  let stmt ← block.findIdx? fun stmt =>
    (m.definitionsOf x stmt).any fun d => d.site.start = first.site.start
  return (value, stmt)

def joinableAssignment (body : Stmt) (block : List Stmt) (i : Nat) : Option JoinTarget :=
  match block[i]? with
  | some (.decl [x] _ none) =>
    match m.firstAssignment x body block with
    | none => none
    | some (value, stmt) =>
      if stmt ≤ i then none
      -- A read before the assignment sees the default value.
      else if readsIn x (windowOf block i (stmt - 1)) ≠ [] then none
      else (m.valueHoistability value (windowOf block i (stmt - 1)) x).map (⟨value, stmt, ·⟩)
  | _ => none

end BodyModel

/-- The block behind the edit. -/
def joinDeclaration (block : List Stmt) (i : Nat) (target : JoinTarget) : List Stmt :=
  match block[i]? with
  | some (.decl [x] type none) =>
    block.take i ++ (.decl [x] type (some target.value) ::
      (windowOf block i (target.stmt - 1) ++ block.drop (target.stmt + 1)))
  | _ => block

section Runs

variable {V : Type} {I : Interpretation V} {n : Nat} {x : Declared} {value : Expr}
  {window rest : List Stmt} {type : String} {left : Path}

lemma alike_append {b b' : List Stmt} (h : BehaveAlike (runBlock I n b) (runBlock I n b'))
    (front : List Stmt) :
    BehaveAlike (runBlock I n (front ++ b)) (runBlock I n (front ++ b')) := by
  rw [runBlock_append, runBlock_append]
  refine .bind_left _ fun flow => ?_
  cases flow with
  | normal => exact h
  | _ => exact .refl _

/-- A value that changes no shared cell is not seen from outside. -/
lemma eqOn_visible_init (h : ∀ s, Cell.shared s ∉ value.changed) (s : State V) :
    Set.EqOn (after (declare I [x] type (some value)) s) s visible := by
  intro c hc
  obtain ⟨k, rfl⟩ := hc
  refine (footprint_init I x type value).frame s fun hin => ?_
  rcases hin with hx | hchanged
  · cases hx
  · exact h k hchanged

/-- The edit of a window that no `break` or `continue` leaves changes no run. -/
theorem Independent.alike_join (h : Independent x value window)
    (hleft : left.wholeVariable = some x.name)
    (hstays : .brk ∉ blockJumps window ∧ .cont ∉ blockJumps window)
    (hstops : .stop ∈ blockJumps window → ∀ s, Cell.shared s ∉ value.changed) :
    BehaveAlike
      (runBlock I n (.decl [x] type none :: (window ++ .expr (.assign "=" left value) :: rest)))
      (runBlock I n (.decl [x] type (some value) :: (window ++ rest))) := by
  rw [runBlock_decl, runBlock_decl, runBlock_append, runBlock_append,
    runBlock_assign hleft type rest]
  intro s
  obtain ⟨hresult, hafter⟩ := h.window_alike (I := I) (n := n) type s
  have hjumps := mem_jumps_of_runBlock (I := I) (n := n) window (after (declare I [x] type none) s)
  -- Behind the window both runs are in the same store, or the window has left the block.
  have hstop : ∀ flow : Flow V, flow.goesOn = false → flow.jump = some .stop →
      result (runBlock I n window) (after (declare I [x] type none) s) = flow →
        Set.EqOn (after (runBlock I n window) (after (declare I [x] type (some value)) s))
          (after (runBlock I n window) (after (declare I [x] type none) s)) visible := by
    intro flow _ hjump hflow
    rw [hafter]
    refine eqOn_visible_init (hstops (hjumps _ ?_)) _
    rw [hflow]
    exact hjump
  simp only [result_bind, after_bind, hresult]
  cases hflow : result (runBlock I n window) (after (declare I [x] type none) s) with
  | normal =>
    simp only [result_bind, after_bind, hafter]
    exact ⟨trivial, Set.eqOn_refl _ _, fun _ => trivial⟩
  | brk =>
    rw [hflow] at hjumps
    exact absurd (hjumps .brk rfl) hstays.1
  | cont =>
    rw [hflow] at hjumps
    exact absurd (hjumps .cont rfl) hstays.2
  | ret v => exact ⟨rfl, hstop _ rfl rfl hflow, fun hgo => by cases hgo⟩
  | unfinished => exact ⟨rfl, hstop _ rfl rfl hflow, fun hgo => by cases hgo⟩

end Runs

/-- What the check does not look at: the statement that is deleted, and where the window can
end. -/
structure DeletesCleanly (x : Declared) (value : Expr) (window : List Stmt) (stmt : Stmt) :
    Prop where
  /-- The statement assigns the value to the variable and does nothing else. -/
  whole : ∃ left, stmt = .expr (.assign "=" left value) ∧ left.wholeVariable = some x.name
  /-- A `delete` in the window leaves alone what the value looks at. -/
  deletes : ∀ stmt ∈ blockSubstmts window, stmt.isDelete = true →
    ∀ s, Cell.shared s ∉ value.touched
  stays : .brk ∉ blockJumps window ∧ .cont ∉ blockJumps window
  /-- Where the window can end the body, the value changes local variables only. -/
  stops : .stop ∈ blockJumps window → ∀ s, Cell.shared s ∉ value.changed

/-- The check of the declaration at the position misses nothing. -/
def JoinsCleanly (m : BodyModel) (decls : String → Declared) (body : Stmt) (block : List Stmt)
    (i : Nat) : Prop :=
  ∀ x type value j stmt, block[i]? = some (.decl [x] type none) →
    m.firstAssignment x body block = some (value, j) → block[j]? = some stmt →
      MovesCleanly m decls x value (windowOf block i (j - 1)) ∧
        DeletesCleanly x value (windowOf block i (j - 1)) stmt

lemma joinDeclaration_eq {block : List Stmt} {i : Nat} {x : Declared} {type : String}
    (hat : block[i]? = some (.decl [x] type none)) (target : JoinTarget) :
    joinDeclaration block i target = block.take i ++ (.decl [x] type (some target.value) ::
      (windowOf block i (target.stmt - 1) ++ block.drop (target.stmt + 1))) := by
  rw [joinDeclaration, hat]

lemma exists_of_firstAssignment {m : BodyModel} {x : Declared} {body : Stmt} {block : List Stmt}
    {value : Expr} {j : Nat} (h : m.firstAssignment x body block = some (value, j)) :
    ∃ stmt, block[j]? = some stmt := by
  unfold BodyModel.firstAssignment at h
  obtain ⟨first, -, h⟩ := Option.bind_eq_some_iff.mp h
  obtain ⟨v, -, h⟩ := Option.bind_eq_some_iff.mp h
  obtain ⟨k, hk, h⟩ := Option.bind_eq_some_iff.mp h
  cases h
  obtain ⟨hlt, -⟩ := List.findIdx?_eq_some_iff_getElem.mp hk
  exact ⟨block[j], List.getElem?_eq_getElem hlt⟩

/-- A verified join changes nothing when the check misses nothing. -/
theorem joinDeclaration_alike (m : BodyModel) (decls : String → Declared) {body : Stmt}
    {block : List Stmt} {i : Nat} {target : JoinTarget}
    (h : m.joinableAssignment body block i = some target)
    (hverified : target.confidence = .verified) (hclean : JoinsCleanly m decls body block i)
    {body' : Stmt} (hbody : Replaced block (joinDeclaration block i target) body body') :
    (∀ x type, block[i]? = some (.decl [x] type none) →
        Independent x target.value (windowOf block i (target.stmt - 1)) ∧
          ∃ left, block[target.stmt]? = some (.expr (.assign "=" left target.value)) ∧
            left.wholeVariable = some x.name) ∧
      ∀ (V : Type) (I : Interpretation V) (n : Nat),
        BehaveAlike (body.run I n) (body'.run I n) := by
  unfold BodyModel.joinableAssignment at h
  split at h
  next x type hat =>
    split at h
    · cases h
    next value j hfirst =>
      split_ifs at h with hle hreads
      obtain ⟨confidence, hhoist, rfl⟩ := Option.map_eq_some_iff.mp h
      obtain rfl : confidence = .verified := hverified
      obtain ⟨stmt, hstmt⟩ := exists_of_firstAssignment hfirst
      obtain ⟨hmoves, hdeletes⟩ := hclean x type value j stmt hat hfirst hstmt
      obtain ⟨left, rfl, hleft⟩ := hdeletes.whole
      have hindependent := independent_of_verified hhoist hmoves hdeletes.deletes
      refine ⟨fun x' type' hat' => ?_, fun V I n => ?_⟩
      · cases hat.symm.trans hat'
        exact ⟨hindependent, left, hstmt, hleft⟩
      · refine alike_of_replaced ?_ hbody
        have hblock := block_eq_window hat (show i ≤ j - 1 by omega)
        have hdrop : block.drop (j - 1 + 1) =
            .expr (.assign "=" left value) :: block.drop (j + 1) := by
          obtain ⟨hlt, hget⟩ := List.getElem?_eq_some_iff.mp hstmt
          rw [show j - 1 + 1 = j by omega, List.drop_eq_getElem_cons hlt, hget]
        rw [joinDeclaration_eq hat]
        nth_rewrite 1 [hblock]
        rw [hdrop]
        exact alike_append (hindependent.alike_join hleft hdeletes.stays hdeletes.stops) _
  next => cases h

/-! ### Two functions

`function g(a : int) : int { var x : int; var y : int; x = a; return x; }`, and one with
`y = x = a; return y;`. -/

def declsOfG (name : String) : Declared :=
  if name = "a" then ⟨"a", 11⟩
  else if name = "x" then ⟨"x", 32⟩
  else if name = "y" then ⟨"y", 45⟩
  else ⟨name, 0⟩

def modelOfG (uses : List (Nat × String)) : BodyModel where
  uri := "g.ws"
  definitionAt start := (uses.find? (·.1 = start)).map fun use =>
    (("g.ws", (declsOfG use.2).range), if use.2 = "a" then .parameter else .variable)
  outParams _ := none

def blockOfG (stmts : List Stmt) : List Stmt :=
  .decl [⟨"x", 32⟩] "int" none :: .decl [⟨"y", 45⟩] "int" none :: stmts

def assignAtByte (name : String) (start : Nat) (value : Expr) : Expr :=
  .assign "=" (.ident ⟨name, start, some (.var name)⟩) value

/-- `x = a; return x;` -/
def plain : List Stmt :=
  [.expr (assignAtByte "x" 54 (usedAt "a" 58)), .ret (some (usedAt "x" 68))]

/-- `y = x = a; return y;` -/
def chained : List Stmt :=
  [.expr (assignAtByte "y" 54 (assignAtByte "x" 58 (usedAt "a" 62))),
    .ret (some (usedAt "y" 72))]

lemma joinsCleanly_plain : JoinsCleanly (modelOfG [(54, "x"), (58, "a"), (68, "x")]) declsOfG
    (.block (blockOfG plain)) (blockOfG plain) 0 := by
  intro x type value j stmt hat hfirst hstmt
  cases hat
  have hassignment : (modelOfG [(54, "x"), (58, "a"), (68, "x")]).firstAssignment ⟨"x", 32⟩
      (.block (blockOfG plain)) (blockOfG plain) = some (usedAt "a" 58, 2) := rfl
  cases hassignment.symm.trans hfirst
  cases hstmt
  refine ⟨⟨?_, ?_, ?_, ?_, ?_, ?_, ?_⟩, ⟨?_, ?_, ?_, ?_⟩⟩
  · decide
  · decide
  · intro e he c hchanges
    rw [List.mem_singleton.mp he] at hchanges
    exact hchanges.elim
  · intro op left right he
    cases he
  · intro o ho
    rw [List.mem_singleton.mp ho]
    exact resolves_usedAt .parameter rfl rfl
  · intro op left right he
    cases he
  · decide
  · exact ⟨_, rfl, rfl⟩
  · intro stmt hstmt hdelete
    rw [List.mem_singleton.mp hstmt] at hdelete
    cases hdelete
  · decide
  · intro hstop
    cases hstop

/-- The assignment to `x` is a statement of its own. -/
theorem joinDeclaration_alike_plain :
    BehaveAlike ((Stmt.block (blockOfG plain)).run ones 1)
      ((Stmt.block (joinDeclaration (blockOfG plain) 0 ⟨usedAt "a" 58, 2, .verified⟩)).run
        ones 1) := by
  have htarget : (modelOfG [(54, "x"), (58, "a"), (68, "x")]).joinableAssignment
      (.block (blockOfG plain)) (blockOfG plain) 0 = some ⟨usedAt "a" 58, 2, .verified⟩ := rfl
  exact (joinDeclaration_alike _ declsOfG htarget rfl joinsCleanly_plain .here).2 Nat ones 1

/-- The assignment to `y` is deleted together with the one to `x`. -/
theorem not_joinDeclaration_alike :
    ¬∀ (m : BodyModel) (decls : String → Declared) (body : Stmt) (block : List Stmt) (i : Nat)
      (target : JoinTarget),
      (∀ stmt ∈ body.substmts, ∀ e ∈ stmt.ownExprs, ∀ o ∈ e.occurrences, m.Resolves decls o) →
      m.joinableAssignment body block i = some target → target.confidence = .verified →
        ∀ body', Replaced block (joinDeclaration block i target) body body' →
          ∀ (V : Type) (I : Interpretation V) (n : Nat),
            BehaveAlike (body.run I n) (body'.run I n) := by
  intro h
  have hresolves : ∀ stmt ∈ (Stmt.block (blockOfG chained)).substmts, ∀ e ∈ stmt.ownExprs,
      ∀ o ∈ e.occurrences,
        (modelOfG [(54, "y"), (58, "x"), (62, "a"), (72, "y")]).Resolves declsOfG o := by
    intro stmt hstmt e he o ho
    have hcases : o = ⟨"y", 54, some (.var "y")⟩ ∨ o = ⟨"x", 58, some (.var "x")⟩ ∨
        o = ⟨"a", 62, some (.var "a")⟩ ∨ o = ⟨"y", 72, some (.var "y")⟩ := by
      have hall : ∀ stmt ∈ (Stmt.block (blockOfG chained)).substmts,
          (stmt.ownExprs.flatMap Expr.occurrences).all fun o =>
            o = ⟨"y", 54, some (.var "y")⟩ || o = ⟨"x", 58, some (.var "x")⟩ ||
              o = ⟨"a", 62, some (.var "a")⟩ || o = ⟨"y", 72, some (.var "y")⟩ := by
        decide
      have hin := List.all_eq_true.mp (hall stmt hstmt) o (List.mem_flatMap.mpr ⟨e, he, ho⟩)
      simpa [or_assoc] using hin
    rcases hcases with rfl | rfl | rfl | rfl
    · exact resolves_usedAt .variable rfl rfl
    · exact resolves_usedAt .variable rfl rfl
    · exact resolves_usedAt .parameter rfl rfl
    · exact resolves_usedAt .variable rfl rfl
  obtain ⟨hresult, -⟩ := h (modelOfG [(54, "y"), (58, "x"), (62, "a"), (72, "y")]) declsOfG
    (.block (blockOfG chained)) (blockOfG chained) 0 ⟨usedAt "a" 62, 2, .verified⟩ hresolves
    rfl rfl _ .here Nat ones 1 fun _ => 1
  have hreturns : (Flow.ret (some 0) : Flow Nat) = .ret (some 1) := hresult
  cases hreturns

end WitcherScriptLanguage.Body
