import WitcherScriptLanguage.Refactor.Hoistability
import WitcherScriptLanguage.Refactor.Windows

/-!
# Splitting a declaration

The initial value of a declaration moves to an assignment behind the leading declarations of its
block (`splittable_declaration` in `resolve/body_model/mod.rs`, `resolve/join_split_decl.rs`). The
check looks at what the value reads. It does not look at what the declarations in between do with
the variable itself.
-/

namespace WitcherScriptLanguage.Body

open Library StoreM

/-- The position of the last declaration of the run at the start of the block. -/
def declarationRunEnd : List Stmt → Option Nat
  | .decl .. :: rest => some ((declarationRunEnd rest).elim 0 (· + 1))
  | .comment _ :: rest => (declarationRunEnd rest).map (· + 1)
  | _ => none

/-- Positions in the block of the declaration. -/
structure SplitTarget where
  /-- The assignment goes behind this statement. -/
  insertAt : Nat
  confidence : Confidence
  deriving DecidableEq

/-- The assignment is a statement, so it must follow every leading declaration. -/
def splitEnd (block : List Stmt) (i : Nat) : Nat := max ((declarationRunEnd block).getD i) i

def BodyModel.splittableDeclaration (m : BodyModel) (block : List Stmt) (i : Nat) :
    Option SplitTarget :=
  match block[i]? with
  | some (.decl [x] _ (some value)) =>
    let insertAt := splitEnd block i
    (m.valueHoistability value (windowOf block i insertAt) x).map fun confidence =>
      ⟨insertAt, confidence⟩
  | _ => none

def assignment (x : Declared) (value : Expr) : Stmt :=
  .expr (.assign "=" (.ident ⟨x.name, x.start, some x.cell⟩) value)

/-- The block behind the edit. -/
def splitDeclaration (block : List Stmt) (i : Nat) (target : SplitTarget) : List Stmt :=
  match block[i]? with
  | some (.decl [x] type (some value)) =>
    block.take i ++ (.decl [x] type none :: (windowOf block i target.insertAt ++
      (assignment x value :: block.drop (target.insertAt + 1))))
  | _ => block

def Stmt.isDeclaration : Stmt → Bool
  | .decl .. => true
  | _ => false

def Stmt.isComment : Stmt → Bool
  | .comment _ => true
  | _ => false

/-- The run holds declarations and comments. -/
lemma plain_of_declarationRunEnd {block : List Stmt} {stop : Nat}
    (h : declarationRunEnd block = some stop) {j : Nat} (hj : j ≤ stop) {stmt : Stmt}
    (hstmt : block[j]? = some stmt) : stmt.isDeclaration = true ∨ stmt.isComment = true := by
  induction block generalizing stop j with
  | nil => cases h
  | cons first rest ih =>
    cases first with
    | decl names type init =>
      cases j with
      | zero =>
        cases hstmt
        exact .inl rfl
      | succ j =>
        rw [declarationRunEnd, Option.some.injEq] at h
        cases hrest : declarationRunEnd rest with
        | none =>
          rw [hrest, Option.elim_none] at h
          omega
        | some k =>
          rw [hrest, Option.elim_some] at h
          exact ih hrest (by omega) hstmt
    | comment text =>
      rw [declarationRunEnd] at h
      obtain ⟨k, hk, hstop⟩ := Option.map_eq_some_iff.mp h
      cases j with
      | zero =>
        cases hstmt
        exact .inr rfl
      | succ j => exact ih hk (by omega) hstmt
    | _ => cases h

/-- The window of a split holds declarations and comments. -/
lemma plain_of_mem_window {block : List Stmt} {i : Nat} {stmt : Stmt}
    (h : stmt ∈ windowOf block i (splitEnd block i)) :
    stmt.isDeclaration = true ∨ stmt.isComment = true := by
  obtain ⟨j, hij, hj, hstmt⟩ := mem_windowOf h
  unfold splitEnd at hj
  cases hrun : declarationRunEnd block with
  | none =>
    rw [hrun, Option.getD_none, Nat.max_self] at hj
    omega
  | some stop =>
    rw [hrun, Option.getD_some] at hj
    exact plain_of_declarationRunEnd hrun (by omega) hstmt

section Runs

variable {V : Type} {I : Interpretation V} {n : Nat} {x : Declared} {value : Expr}
  {window rest block : List Stmt} {type : String} {m : BodyModel} {decls : String → Declared}

/-- Declarations and comments run through. -/
lemma result_plain (h : ∀ stmt ∈ window, stmt.isDeclaration = true ∨ stmt.isComment = true)
    (s : State V) : result (runBlock I n window) s = .normal := by
  induction window generalizing s with
  | nil => rfl
  | cons stmt window ih =>
    have hrest := ih fun stmt hstmt => h stmt (List.mem_cons_of_mem _ hstmt)
    have hstmt : result (stmt.run I n) s = .normal := by
      cases stmt with
      | decl => rfl
      | comment => rfl
      | _ => simp [Stmt.isDeclaration, Stmt.isComment] at h
    rw [runBlock, result_bind, hstmt]
    exact hrest _

/-- The edit of a window that runs through changes no run. -/
theorem Independent.runBlock_split (h : Independent x value window)
    (hnormal : ∀ s : State V, result (runBlock I n window) s = .normal) :
    runBlock I n (.decl [x] type none :: (window ++ assignment x value :: rest)) =
      runBlock I n (.decl [x] type (some value) :: (window ++ rest)) := by
  rw [runBlock_decl, runBlock_decl, runBlock_append, runBlock_append, assignment,
    runBlock_assign (x := x) rfl type rest]
  refine StoreM.ext (fun s => ?_) fun s => ?_
  · obtain ⟨-, hafter⟩ := h.window_alike (I := I) (n := n) type s
    simp only [result_bind, hnormal]
    rw [hafter]
  · obtain ⟨-, hafter⟩ := h.window_alike (I := I) (n := n) type s
    simp only [hnormal, after_bind]
    rw [hafter]

end Runs

/-- The check of the declaration at the position misses nothing. -/
def SplitsCleanly (m : BodyModel) (decls : String → Declared) (block : List Stmt) (i : Nat) :
    Prop :=
  ∀ x type value, block[i]? = some (.decl [x] type (some value)) →
    MovesCleanly m decls x value (windowOf block i (splitEnd block i))

lemma isDelete_of_window {window : List Stmt}
    (h : ∀ stmt ∈ window, stmt.isDeclaration = true ∨ stmt.isComment = true) :
    ∀ stmt ∈ blockSubstmts window, stmt.isDelete = false := by
  induction window with
  | nil => exact fun stmt hstmt => by cases hstmt
  | cons first window ih =>
    intro stmt hstmt
    rcases List.mem_append.mp hstmt with hfirst | hrest
    · have hplain := h first List.mem_cons_self
      cases first with
      | decl =>
        rw [List.mem_singleton.mp hfirst]
        rfl
      | comment =>
        rw [List.mem_singleton.mp hfirst]
        rfl
      | _ => simp [Stmt.isDeclaration, Stmt.isComment] at hplain
    · exact ih (fun s hs => h s (List.mem_cons_of_mem _ hs)) stmt hrest

lemma splitDeclaration_eq {block : List Stmt} {i : Nat} {x : Declared} {type : String}
    {value : Expr} (hat : block[i]? = some (.decl [x] type (some value))) (target : SplitTarget) :
    splitDeclaration block i target =
      block.take i ++ (.decl [x] type none :: (windowOf block i target.insertAt ++
        (assignment x value :: block.drop (target.insertAt + 1)))) := by
  rw [splitDeclaration, hat]

/-- A verified split changes nothing when the check misses nothing. -/
theorem splitDeclaration_alike (m : BodyModel) (decls : String → Declared) {block : List Stmt}
    {i : Nat} {target : SplitTarget} (h : m.splittableDeclaration block i = some target)
    (hverified : target.confidence = .verified) (hclean : SplitsCleanly m decls block i)
    {body body' : Stmt} (hbody : Replaced block (splitDeclaration block i target) body body') :
    (∀ x type value, block[i]? = some (.decl [x] type (some value)) →
        Independent x value (windowOf block i target.insertAt)) ∧
      ∀ (V : Type) (I : Interpretation V) (n : Nat),
        BehaveAlike (body.run I n) (body'.run I n) := by
  unfold BodyModel.splittableDeclaration at h
  split at h
  next x type value hat =>
    dsimp only at h
    obtain ⟨confidence, hhoist, rfl⟩ := Option.map_eq_some_iff.mp h
    obtain rfl : confidence = .verified := hverified
    have hplain : ∀ stmt ∈ windowOf block i (splitEnd block i),
        stmt.isDeclaration = true ∨ stmt.isComment = true := fun stmt => plain_of_mem_window
    have hindependent := independent_of_verified hhoist (hclean x type value hat)
      fun stmt hstmt hdelete => by
        rw [isDelete_of_window hplain stmt hstmt] at hdelete
        cases hdelete
    refine ⟨fun x' type' value' hat' => ?_, fun V I n => ?_⟩
    · cases hat.symm.trans hat'
      exact hindependent
    · refine alike_of_replaced (.of_eq ?_) hbody
      have hle : i ≤ splitEnd block i := Nat.le_max_right _ _
      have hblock := block_eq_window hat hle
      rw [splitDeclaration_eq hat]
      nth_rewrite 1 [hblock]
      rw [runBlock_append, runBlock_append,
        hindependent.runBlock_split (result_plain hplain)]
  next => cases h

/-! ### Two functions

`function f(a : int) : int { var x : int = a; var y : int = 1; return y; }`, and the same with
`x` in place of `1`. -/

/-- Numbers as values, and every literal is `1`. -/
def ones : Interpretation Nat where
  constant _ := 1
  operator _ _ := 0
  truthy v := v != 0
  same v w := v == w
  initial _ _ := 0
  create _ _ := 0
  read _ := 0
  write _ v _ := v
  call _ contents := (0, contents)
  passBack _ _ _ := 0
  delete _ contents := contents

def declsOfF (name : String) : Declared :=
  if name = "a" then ⟨"a", 11⟩
  else if name = "x" then ⟨"x", 32⟩
  else if name = "y" then ⟨"y", 49⟩
  else ⟨name, 0⟩

def modelOfF : BodyModel where
  uri := "f.ws"
  definitionAt start :=
    if start = 42 then some (("f.ws", ⟨11, 12⟩), .parameter)
    else if start = 59 then some (("f.ws", ⟨32, 33⟩), .variable)
    else if start = 69 then some (("f.ws", ⟨49, 50⟩), .variable)
    else none
  outParams _ := none

def usedAt (name : String) (start : Nat) : Expr := .path (.ident ⟨name, start, some (.var name)⟩)

def blockOfF (second : Expr) : List Stmt :=
  [.decl [⟨"x", 32⟩] "int" (some (usedAt "a" 42)), .decl [⟨"y", 49⟩] "int" (some second),
    .ret (some (usedAt "y" 69))]

lemma resolves_usedAt {m : BodyModel} {decls : String → Declared} {name : String} {start : Nat}
    (kind : SymbolKind)
    (hat : m.definitionAt start = some (m.localKey (decls name), kind))
    (hstored : BodyModel.isStored kind = true) :
    m.Resolves decls ⟨name, start, some (.var name)⟩ := by
  rintro c ⟨⟩
  exact ⟨_, kind, rfl, hat, hstored⟩

lemma splitsCleanly_blockOfF :
    SplitsCleanly modelOfF declsOfF (blockOfF (.constant "1")) 0 := by
  rintro x type value hat
  cases hat
  refine ⟨?_, ?_, ?_, ?_, ?_, ?_, ?_⟩
  · decide
  · decide
  · intro e he c hchanges
    rw [List.mem_singleton.mp he] at hchanges
    exact hchanges.elim
  · intro op left right he
    cases List.mem_singleton.mp he
  · intro o ho
    rw [List.mem_singleton.mp ho]
    exact resolves_usedAt .parameter rfl rfl
  · intro op left right he
    cases List.mem_singleton.mp he
  · decide

/-- The declaration of `y` does not mention `x`. -/
theorem splitDeclaration_alike_blockOfF :
    BehaveAlike ((Stmt.block (blockOfF (.constant "1"))).run ones 1)
      ((Stmt.block (splitDeclaration (blockOfF (.constant "1")) 0 ⟨1, .verified⟩)).run ones 1) := by
  have htarget : modelOfF.splittableDeclaration (blockOfF (.constant "1")) 0 =
      some ⟨1, .verified⟩ := rfl
  exact (splitDeclaration_alike modelOfF declsOfF htarget rfl splitsCleanly_blockOfF .here).2
    Nat ones 1

/-- The declaration of `y` reads `x`, and behind the edit it reads it too early. -/
theorem not_splitDeclaration_alike :
    ¬∀ (m : BodyModel) (decls : String → Declared) (block : List Stmt) (i : Nat)
      (target : SplitTarget),
      (∀ stmt ∈ blockSubstmts block, ∀ e ∈ stmt.ownExprs, ∀ o ∈ e.occurrences,
        m.Resolves decls o) →
      m.splittableDeclaration block i = some target → target.confidence = .verified →
        ∀ body body', Replaced block (splitDeclaration block i target) body body' →
          ∀ (V : Type) (I : Interpretation V) (n : Nat),
            BehaveAlike (body.run I n) (body'.run I n) := by
  intro h
  have hresolves : ∀ stmt ∈ blockSubstmts (blockOfF (usedAt "x" 59)), ∀ e ∈ stmt.ownExprs,
      ∀ o ∈ e.occurrences, modelOfF.Resolves declsOfF o := by
    intro stmt hstmt e he o ho
    have hcases : o = ⟨"a", 42, some (.var "a")⟩ ∨ o = ⟨"x", 59, some (.var "x")⟩ ∨
        o = ⟨"y", 69, some (.var "y")⟩ := by
      have hall : ∀ stmt ∈ blockSubstmts (blockOfF (usedAt "x" 59)),
          (stmt.ownExprs.flatMap Expr.occurrences).all fun o =>
            o = ⟨"a", 42, some (.var "a")⟩ || o = ⟨"x", 59, some (.var "x")⟩ ||
              o = ⟨"y", 69, some (.var "y")⟩ := by
        decide
      have hin := List.all_eq_true.mp (hall stmt hstmt) o (List.mem_flatMap.mpr ⟨e, he, ho⟩)
      simpa [or_assoc] using hin
    rcases hcases with rfl | rfl | rfl
    · exact resolves_usedAt .parameter rfl rfl
    · exact resolves_usedAt .variable rfl rfl
    · exact resolves_usedAt .variable rfl rfl
  obtain ⟨hresult, -⟩ := h modelOfF declsOfF (blockOfF (usedAt "x" 59)) 0 ⟨1, .verified⟩ hresolves
    rfl rfl (.block (blockOfF (usedAt "x" 59))) _ .here Nat ones 1 fun _ => 1
  have hreturns : (Flow.ret (some 0) : Flow Nat) = .ret (some 1) := hresult
  cases hreturns

end WitcherScriptLanguage.Body
