import Mathlib.Data.List.Basic
import WitcherScriptLanguage.Resolve.ReachingDefs

/-!
# Reaching definitions against execution paths

An execution of a body is a sequence of reads and definitions of the local. A loop may be left
after any number of iterations, so every path to a read is a prefix of an execution. The mask
recorded for a read contains the definition executed last before it as long as, of what an
execution comes to, no condition or case label defines, no leaf reads after it defines or defines
on some of its paths only, and no `continue` leaves a do-while body with a definition of its own.
-/

namespace WitcherScriptLanguage

open Library

inductive Event
  | read (i : Nat)
  | define (d : Nat)
  deriving DecidableEq, Repr

/-- The event sequences of an expression. -/
def Evaluation.paths : Evaluation → List (List Event)
  | skip => [[]]
  | read i => [[.read i]]
  | define d => [[.define d]]
  | seq first second => first.paths.flatMap fun p => second.paths.map fun q => p ++ q
  | choice left right => left.paths ++ right.paths

def optPaths : Option Region → List (List Event)
  | some r => r.evaluation.paths
  | none => [[]]

inductive Outcome
  | normal | brk | cont | ret
  deriving DecidableEq, Repr

/-- A loop catches `break` and passes `return` on. -/
inductive LeavesLoop : Outcome → Outcome → Prop
  | brk : LeavesLoop .brk .normal
  | ret : LeavesLoop .ret .ret

/-- The outcomes of a loop body after which the loop goes on. -/
inductive Repeats : Outcome → Prop
  | normal : Repeats .normal
  | cont : Repeats .cont

/-- A switch catches `break`. -/
def leaveSwitch : Outcome → Outcome
  | .brk => .normal
  | o => o

/-- The labels are tested in order; a match enters the switch behind its label. -/
inductive CaseEntry : Sections → List Event → Sections → Prop
  | hit {value rest p} : p ∈ optPaths value → CaseEntry (.caseLabel value rest) p rest
  | miss {value rest p q target} : p ∈ optPaths value → CaseEntry rest q target →
      CaseEntry (.caseLabel value rest) (p ++ q) target
  | default {rest q target} : CaseEntry rest q target → CaseEntry (.defaultLabel rest) q target
  | stmt {s rest q target} : CaseEntry rest q target → CaseEntry (.stmt s rest) q target

/-- No label matches. -/
inductive NoCase : Sections → List Event → Prop
  | nil : NoCase .nil []
  | miss {value rest p q} : p ∈ optPaths value → NoCase rest q →
      NoCase (.caseLabel value rest) (p ++ q)
  | default {rest q} : NoCase rest q → NoCase (.defaultLabel rest) q
  | stmt {s rest q} : NoCase rest q → NoCase (.stmt s rest) q

/-- The sections behind a `default` label. -/
inductive DefaultAt : Sections → Sections → Prop
  | here {rest} : DefaultAt (.defaultLabel rest) rest
  | label {value rest target} : DefaultAt rest target → DefaultAt (.caseLabel value rest) target
  | default {rest target} : DefaultAt rest target → DefaultAt (.defaultLabel rest) target
  | stmt {s rest target} : DefaultAt rest target → DefaultAt (.stmt s rest) target

def Sections.hasDefault : Sections → Bool
  | nil => false
  | caseLabel _ rest => rest.hasDefault
  | defaultLabel _ => true
  | stmt _ rest => rest.hasDefault

inductive Task
  | stmt (s : Stmt)
  | block (b : Block)
  | sections (s : Sections)

/-- The executions of a statement: the events met and how control leaves it. -/
inductive Exec : Task → List Event → Outcome → Prop
  | block {b es o} : Exec (.block b) es o → Exec (.stmt (.block b)) es o
  | leaf {node p} : p ∈ node.evaluation.paths → Exec (.stmt (.leaf node)) p .normal
  | ret {node p} : p ∈ node.evaluation.paths → Exec (.stmt (.ret node)) p .ret
  | brk : Exec (.stmt .brk) [] .brk
  | cont : Exec (.stmt .cont) [] .cont
  | ifThen {cond body orElse p es o} : p ∈ optPaths cond → Exec (.stmt body) es o →
      Exec (.stmt (.ifStmt cond body orElse)) (p ++ es) o
  | ifElse {cond body orElse p es o} : p ∈ optPaths cond → Exec (.stmt orElse) es o →
      Exec (.stmt (.ifStmt cond body orElse)) (p ++ es) o
  | whileExit {cond body p} : p ∈ optPaths cond → Exec (.stmt (.whileStmt cond body)) p .normal
  | whileLeave {cond body p es o o'} : p ∈ optPaths cond → Exec (.stmt body) es o →
      LeavesLoop o o' → Exec (.stmt (.whileStmt cond body)) (p ++ es) o'
  | whileNext {cond body p es o es' o'} : p ∈ optPaths cond → Exec (.stmt body) es o →
      Repeats o → Exec (.stmt (.whileStmt cond body)) es' o' →
      Exec (.stmt (.whileStmt cond body)) (p ++ es ++ es') o'
  | doLeave {cond body es o o'} : Exec (.stmt body) es o → LeavesLoop o o' →
      Exec (.stmt (.doWhile cond body)) es o'
  | doExit {cond body es o p} : Exec (.stmt body) es o → Repeats o → p ∈ optPaths cond →
      Exec (.stmt (.doWhile cond body)) (es ++ p) .normal
  | doNext {cond body es o p es' o'} : Exec (.stmt body) es o → Repeats o → p ∈ optPaths cond →
      Exec (.stmt (.doWhile cond body)) es' o' →
      Exec (.stmt (.doWhile cond body)) (es ++ p ++ es') o'
  | forInit {node cond iter body p es o} : p ∈ node.evaluation.paths →
      Exec (.stmt (.forStmt none cond iter body)) es o →
      Exec (.stmt (.forStmt (some node) cond iter body)) (p ++ es) o
  | forExit {cond iter body p} : p ∈ optPaths cond →
      Exec (.stmt (.forStmt none cond iter body)) p .normal
  | forLeave {cond iter body p es o o'} : p ∈ optPaths cond → Exec (.stmt body) es o →
      LeavesLoop o o' → Exec (.stmt (.forStmt none cond iter body)) (p ++ es) o'
  | forNext {cond iter body p es o q es' o'} : p ∈ optPaths cond → Exec (.stmt body) es o →
      Repeats o → q ∈ optPaths iter → Exec (.stmt (.forStmt none cond iter body)) es' o' →
      Exec (.stmt (.forStmt none cond iter body)) (p ++ es ++ q ++ es') o'
  | switchCase {cond sections p q target es o} : p ∈ optPaths cond →
      CaseEntry sections q target → Exec (.sections target) es o →
      Exec (.stmt (.switchStmt cond sections)) (p ++ q ++ es) (leaveSwitch o)
  | switchDefault {cond sections p q target es o} : p ∈ optPaths cond → NoCase sections q →
      DefaultAt sections target → Exec (.sections target) es o →
      Exec (.stmt (.switchStmt cond sections)) (p ++ q ++ es) (leaveSwitch o)
  | switchNone {cond sections p q} : p ∈ optPaths cond → NoCase sections q →
      sections.hasDefault = false → Exec (.stmt (.switchStmt cond sections)) (p ++ q) .normal
  | nop : Exec (.stmt .nop) [] .normal
  | other {node p} : p ∈ node.evaluation.paths → Exec (.stmt (.other node)) p .normal
  | blockNil : Exec (.block .nil) [] .normal
  | blockCons {s rest es es' o} : Exec (.stmt s) es .normal → Exec (.block rest) es' o →
      Exec (.block (.cons s rest)) (es ++ es') o
  | blockLeave {s rest es o} : Exec (.stmt s) es o → o ≠ .normal →
      Exec (.block (.cons s rest)) es o
  | sectionsNil : Exec (.sections .nil) [] .normal
  | sectionsCase {value rest es o} : Exec (.sections rest) es o →
      Exec (.sections (.caseLabel value rest)) es o
  | sectionsDefault {rest es o} : Exec (.sections rest) es o →
      Exec (.sections (.defaultLabel rest)) es o
  | sectionsStmt {s rest es es' o} : Exec (.stmt s) es .normal → Exec (.sections rest) es' o →
      Exec (.sections (.stmt s rest)) (es ++ es') o
  | sectionsLeave {s rest es o} : Exec (.stmt s) es o → o ≠ .normal →
      Exec (.sections (.stmt s rest)) es o

def Event.defines : Event → Option Nat
  | read _ => none
  | define d => some d

/-- The definition executed last when `es` runs after `before`. -/
def lastDef (before : Option Nat) (es : List Event) : Option Nat :=
  es.foldl (fun before e => e.defines.or before) before

@[simp] lemma lastDef_nil (s : Option Nat) : lastDef s [] = s := rfl

@[simp] lemma lastDef_append (s : Option Nat) (es es' : List Event) :
    lastDef s (es ++ es') = lastDef (lastDef s es) es' := List.foldl_append

lemma lastDef_cons (s : Option Nat) (e : Event) (es : List Event) :
    lastDef s (e :: es) = lastDef (e.defines.or s) es := rfl

lemma lastDef_of_reads {es : List Event} (h : ∀ e ∈ es, e.defines = none) (s : Option Nat) :
    lastDef s es = s := by
  induction es generalizing s with
  | nil => rfl
  | cons e es ih =>
    rw [lastDef_cons, h e (by simp)]
    exact ih (fun e' he => h e' (by simp [he])) s

lemma lastDef_eq_or (s : Option Nat) (es : List Event) :
    lastDef s es = (lastDef none es).or s := by
  induction es generalizing s with
  | nil => rfl
  | cons e es ih =>
    rw [lastDef_cons, lastDef_cons, ih, ih (e.defines.or none)]
    cases lastDef none es <;> cases e.defines <;> simp

/-- The mask contains the definition executed last, if there is one. -/
def Holds (m : Mask) (s : Option Nat) : Prop := ∀ d, s = some d → m.getLsbD d = true

/-- Control can reach the point, and its mask contains the definition executed last. -/
def Reaches (m : Option Mask) (s : Option Nat) : Prop := ∃ x, m = some x ∧ Holds x s

def Flow.exit (f : Flow) : Outcome → Option Mask
  | .normal => f.normal
  | .brk => f.breaks
  | .cont => f.continues
  | .ret => f.returns

def recorded (out : List Mask) (i : Nat) : Mask := (out[i]?).getD 0#128

/-- Every read of the path has the definition executed last before it in its mask. -/
def Covers (out : List Mask) (s : Option Nat) (es : List Event) : Prop :=
  ∀ pre i post, es = pre ++ .read i :: post → Holds (recorded out i) (lastDef s pre)

/-- Masks only grow. -/
structure Grows (out out' : List Mask) : Prop where
  length : out'.length = out.length
  bits : ∀ i d, (recorded out i).getLsbD d = true → (recorded out' i).getLsbD d = true

lemma holds_union {x y : Mask} {s : Option Nat} (h : Holds x s ∨ Holds y s) :
    Holds (x ||| y) s := by
  intro d hd
  rw [BitVec.getLsbD_or]
  rcases h with h | h <;> simp [h d hd]

lemma reaches_union {x y : Option Mask} {s : Option Nat} (h : Reaches x s ∨ Reaches y s) :
    Reaches (union x y) s := by
  rcases h with ⟨m, rfl, hm⟩ | ⟨m, rfl, hm⟩
  · cases y with
    | none => exact ⟨m, rfl, hm⟩
    | some y => exact ⟨_, rfl, holds_union (.inl hm)⟩
  · cases x with
    | none => exact ⟨m, rfl, hm⟩
    | some x => exact ⟨_, rfl, holds_union (.inr hm)⟩

lemma reaches_some {m : Mask} {s : Option Nat} (h : Holds m s) : Reaches (some m) s := ⟨m, rfl, h⟩

lemma Grows.refl (out : List Mask) : Grows out out := ⟨rfl, fun _ _ h => h⟩

lemma Grows.trans {out out' out'' : List Mask} (h : Grows out out') (h' : Grows out' out'') :
    Grows out out'' :=
  ⟨h'.length.trans h.length, fun i d hd => h'.bits i d (h.bits i d hd)⟩

lemma Covers.grows {out out' : List Mask} {s : Option Nat} {es : List Event}
    (h : Covers out s es) (hgrows : Grows out out') : Covers out' s es :=
  fun pre i post hes d hd => hgrows.bits i d (h pre i post hes d hd)

lemma covers_nil (out : List Mask) (s : Option Nat) : Covers out s [] := by
  intro pre i post h
  simp at h

lemma Covers.append {out : List Mask} {s : Option Nat} {es es' : List Event}
    (h : Covers out s es) (h' : Covers out (lastDef s es) es') : Covers out s (es ++ es') := by
  intro pre i post hsplit
  rcases List.append_eq_append_iff.mp hsplit with ⟨mid, rfl, hmid⟩ | ⟨mid, hes, hpost⟩
  · rw [lastDef_append]
    exact h' mid i post hmid
  · cases mid with
    | nil =>
      rw [List.append_nil] at hes
      subst hes
      exact h' [] i post hpost.symm
    | cons e mid =>
      rw [List.cons_append, List.cons.injEq] at hpost
      obtain ⟨rfl, -⟩ := hpost
      exact h pre i mid hes

def optAll (ok : Region → Bool) : Option Region → Bool
  | some r => ok r
  | none => true

/-- Some execution falls off the end of the statement. -/
def Stmt.EndsNormally (s : Stmt) : Prop := ∃ es, Exec (.stmt s) es .normal

/-- Some execution of the statement, as the body of a loop, comes to its next iteration. -/
def Stmt.Iterates (s : Stmt) : Prop := ∃ es o, Exec (.stmt s) es o ∧ Repeats o

section

variable (onLeaf onCond : Region → Bool) (onDoBody : Stmt → Prop)

mutual

/-- Asks something of the leaves, the condition-like regions and the do-while bodies that an
execution of the statement comes to. -/
def Stmt.Check : Stmt → Prop
  | .block stmts => stmts.Check
  | .leaf node => onLeaf node
  | .ret node => onLeaf node
  | .brk => True
  | .cont => True
  | .ifStmt cond body orElse => optAll onCond cond ∧ body.Check ∧ orElse.Check
  | .whileStmt cond body => optAll onCond cond ∧ body.Check
  | .doWhile cond body => (body.Iterates → optAll onCond cond) ∧ onDoBody body ∧ body.Check
  | .forStmt init cond iter body =>
    optAll onLeaf init ∧ optAll onCond cond ∧ (body.Iterates → optAll onLeaf iter) ∧ body.Check
  | .switchStmt cond sections => optAll onCond cond ∧ sections.Check False
  | .nop => True
  | .other node => onCond node

def Block.Check : Block → Prop
  | .nil => True
  | .cons stmt rest => stmt.Check ∧ (stmt.EndsNormally → rest.Check)

/-- `entered` says whether an execution comes to the first statement. Every label is tested. -/
def Sections.Check (entered : Prop) : Sections → Prop
  | .nil => True
  | .caseLabel value rest => optAll onCond value ∧ rest.Check True
  | .defaultLabel rest => rest.Check True
  | .stmt stmt rest => (entered → stmt.Check) ∧ rest.Check (entered ∧ stmt.EndsNormally)

end

end

/-- What a `continue` of a do-while body has defined last, an execution that falls off the end of
the body or leaves it by `break` has defined last too. -/
def ContinueLosesNothing (body : Stmt) : Prop :=
  ∀ es, Exec (.stmt body) es .cont → ∃ es' o, Exec (.stmt body) es' o ∧
    (o = .normal ∨ o = .brk) ∧ lastDef none es' = lastDef none es

/-- No read follows a definition. -/
def readsFirst : List Event → Bool
  | [] => true
  | .read _ :: rest => readsFirst rest
  | .define _ :: rest => rest.all (fun e => e.defines.isSome)

namespace Analyzer

variable (a : Analyzer)

/-- Every read and definition of the region lies within its bytes. -/
def located (r : Region) : Bool :=
  r.evaluation.paths.all fun p => p.all fun e =>
    match e with
    | .read i => (a.reads[i]?).any (fun read => within read r.span)
    | .define d => (a.defs[d]?).any (fun d => within d.owner r.span)

/-- On every path of the region the reads come first and, if the region defines the local, the
textually latest definition is the last to take effect. -/
def straight (r : Region) : Bool :=
  r.evaluation.paths.all fun p => readsFirst p &&
    match a.latestIn r.span with
    | some d => lastDef none p == some d
    | none => true

end Analyzer

/-- The region defines nothing. -/
def Region.quiet (r : Region) : Bool :=
  r.evaluation.paths.all fun p => p.all fun e => e.defines.isNone

lemma lastDef_of_readsFirst {p pre post : List Event} {i : Nat} (h : readsFirst p)
    (hp : p = pre ++ .read i :: post) (s : Option Nat) : lastDef s pre = s := by
  subst hp
  induction pre with
  | nil => rfl
  | cons e pre ih =>
    cases e with
    | read j => exact ih h
    | define d =>
      have hread := List.all_eq_true.mp h (.read i) (by simp)
      simp [Event.defines] at hread

/-! ### Recording -/

namespace Analyzer

variable {a : Analyzer}

lemma record_length (region : ByteRange) (m : Mask) (pass : Pass) (out : List Mask) :
    (a.record region m pass out).length = out.length := by
  cases pass <;> simp [record]

lemma recorded_record (region : ByteRange) (m : Mask) (out : List Mask) (i : Nat) :
    recorded (a.record region m .record out) i =
      if i < out.length then
        match a.reads[i]? with
        | some read => if within read region then recorded out i ||| m else recorded out i
        | none => recorded out i
      else 0#128 := by
  simp only [recorded, record, List.getElem?_mapIdx]
  split_ifs with h
  · rw [List.getElem?_eq_getElem h]
    cases a.reads[i]? <;> rfl
  · rw [List.getElem?_eq_none (l := out) (by omega)]
    rfl

lemma record_grows (region : ByteRange) (m : Mask) (pass : Pass) (out : List Mask) :
    Grows out (a.record region m pass out) := by
  refine ⟨record_length region m pass out, fun i d hd => ?_⟩
  cases pass with
  | learn => exact hd
  | record =>
    have hi : i < out.length := by
      by_contra hi
      rw [recorded, List.getElem?_eq_none (by omega)] at hd
      simp at hd
    rw [recorded_record, if_pos hi]
    cases a.reads[i]? with
    | none => exact hd
    | some read =>
      dsimp only
      split_ifs
      · simp [hd]
      · exact hd

lemma recordOpt_grows (region : Option Region) (m : Mask) (pass : Pass) (out : List Mask) :
    Grows out (a.recordOpt region m pass out) := by
  cases region with
  | none => exact Grows.refl out
  | some r => exact record_grows r.span m pass out

/-- Recording a region covers a path on which every read sees the incoming state. -/
lemma record_covers {r : Region} (hlocated : a.located r) {p : List Event}
    (hp : p ∈ r.evaluation.paths) {m : Mask} {s : Option Nat} (hm : Holds m s)
    (hreads : ∀ pre i post, p = pre ++ .read i :: post → lastDef s pre = s)
    {out : List Mask} (hout : out.length = a.reads.length) :
    Covers (a.record r.span m .record out) s p := by
  intro pre i post hsplit d hd
  have hall := List.all_eq_true.mp (List.all_eq_true.mp hlocated p hp) (.read i) (by simp [hsplit])
  obtain ⟨read, hread, hwithin⟩ := (Option.any_eq_true _ _).mp hall
  have hi : i < out.length := by
    rw [hout]
    exact (List.getElem?_eq_some_iff.mp hread).1
  rw [hreads pre i post hsplit] at hd
  rw [recorded_record, if_pos hi, hread]
  dsimp only
  rw [if_pos hwithin, BitVec.getLsbD_or, hm d hd, Bool.or_true]

lemma recordOpt_learn (region : Option Region) (m : Mask) (out : List Mask) :
    a.recordOpt region m .learn out = out := by
  cases region <;> rfl

lemma evalLeafOpt_learn (region : Option Region) (m : Mask) (out : List Mask) :
    (a.evalLeafOpt region m .learn out).2 = out := by
  cases region <;> rfl

mutual

/-- The learning pass records nothing. -/
theorem evalStmt_learn (s : Stmt) (m : Mask) (out : List Mask) :
    (a.evalStmt s m .learn out).2 = out := by
  cases s with
  | block stmts => exact evalBlock_learn stmts _ out
  | leaf node => rfl
  | ret node => rfl
  | brk => rfl
  | cont => rfl
  | ifStmt cond body orElse =>
    simp only [evalStmt, recordOpt_learn, evalStmt_learn body, evalStmt_learn orElse]
  | whileStmt cond body => simp only [evalStmt, recordOpt_learn, evalStmt_learn body]
  | doWhile cond body => simp only [evalStmt, recordOpt_learn, evalStmt_learn body]
  | forStmt init cond iter body =>
    simp only [evalStmt, recordOpt_learn, evalLeafOpt_learn, evalStmt_learn body]
  | switchStmt cond sections =>
    simp only [evalStmt, recordOpt_learn, evalSections_learn sections]
  | nop => rfl
  | other node => rfl

theorem evalBlock_learn (b : Block) (flow : Flow) (out : List Mask) :
    (a.evalBlock b flow .learn out).2 = out := by
  cases b with
  | nil => rfl
  | cons stmt rest =>
    rw [evalBlock]
    cases flow.normal with
    | none => rfl
    | some cur =>
      dsimp only
      rw [evalBlock_learn rest, evalStmt_learn stmt]

theorem evalSections_learn (s : Sections) (entry : Mask) (acc : SwitchFlow) (out : List Mask) :
    (a.evalSections s entry acc .learn out).2 = out := by
  cases s with
  | nil => rfl
  | caseLabel value rest => rw [evalSections, evalSections_learn rest, recordOpt_learn]
  | defaultLabel rest => rw [evalSections, evalSections_learn rest]
  | stmt stmt rest =>
    rw [evalSections]
    dsimp only
    rw [evalSections_learn rest, evalStmt_learn stmt]

end

lemma evalLeafOpt_grows (region : Option Region) (m : Mask) (out : List Mask) :
    Grows out (a.evalLeafOpt region m .record out).2 := by
  cases region with
  | none => exact Grows.refl out
  | some r => exact record_grows r.span m .record out

mutual

theorem evalStmt_grows (s : Stmt) (m : Mask) (out : List Mask) :
    Grows out (a.evalStmt s m .record out).2 := by
  cases s with
  | block stmts => exact evalBlock_grows stmts _ out
  | leaf node => exact record_grows node.span m .record out
  | ret node => exact record_grows node.span m .record out
  | brk => exact Grows.refl out
  | cont => exact Grows.refl out
  | ifStmt cond body orElse =>
    exact (recordOpt_grows cond m .record out).trans
      ((evalStmt_grows body m _).trans (evalStmt_grows orElse m _))
  | whileStmt cond body =>
    simp only [evalStmt, evalStmt_learn]
    exact (recordOpt_grows cond _ .record out).trans (evalStmt_grows body _ _)
  | doWhile cond body =>
    simp only [evalStmt, evalStmt_learn]
    exact (evalStmt_grows body _ out).trans (recordOpt_grows cond _ .record _)
  | forStmt init cond iter body =>
    simp only [evalStmt, evalStmt_learn]
    exact (evalLeafOpt_grows init m out).trans ((recordOpt_grows cond _ .record _).trans
      ((evalStmt_grows body _ _).trans (recordOpt_grows iter _ .record _)))
  | switchStmt cond sections =>
    exact (recordOpt_grows cond m .record out).trans (evalSections_grows sections m {} _)
  | nop => exact Grows.refl out
  | other node => exact record_grows node.span _ .record out

theorem evalBlock_grows (b : Block) (flow : Flow) (out : List Mask) :
    Grows out (a.evalBlock b flow .record out).2 := by
  cases b with
  | nil => exact Grows.refl out
  | cons stmt rest =>
    rw [evalBlock]
    cases flow.normal with
    | none => exact Grows.refl out
    | some cur => exact (evalStmt_grows stmt cur out).trans (evalBlock_grows rest _ _)

theorem evalSections_grows (s : Sections) (entry : Mask) (acc : SwitchFlow) (out : List Mask) :
    Grows out (a.evalSections s entry acc .record out).2 := by
  cases s with
  | nil => exact Grows.refl out
  | caseLabel value rest =>
    exact (recordOpt_grows value entry .record out).trans (evalSections_grows rest entry _ _)
  | defaultLabel rest => exact evalSections_grows rest entry _ out
  | stmt stmt rest =>
    exact (evalStmt_grows stmt _ out).trans (evalSections_grows rest entry _ _)

end

lemma quiet_lastDef {r : Region} (h : r.quiet) {p : List Event}
    (hp : p ∈ r.evaluation.paths) (s : Option Nat) : lastDef s p = s := by
  apply lastDef_of_reads
  intro e he
  exact Option.isNone_iff_eq_none.mp (List.all_eq_true.mp (List.all_eq_true.mp h p hp) e he)

/-- A condition leaves the state alone and records its reads on it. -/
lemma quiet_sound {region : Option Region} (hlocated : optAll a.located region)
    (hquiet : optAll Region.quiet region) {p : List Event} (hp : p ∈ optPaths region) {m : Mask}
    {s : Option Nat} (hm : Holds m s) {out : List Mask} (hout : out.length = a.reads.length) :
    lastDef s p = s ∧ Covers (a.recordOpt region m .record out) s p := by
  cases region with
  | none =>
    rw [List.mem_singleton.mp hp]
    exact ⟨rfl, covers_nil _ _⟩
  | some r =>
    refine ⟨quiet_lastDef hquiet hp s, record_covers hlocated hp hm ?_ hout⟩
    intro pre i post hsplit
    apply lastDef_of_reads
    intro e he
    exact Option.isNone_iff_eq_none.mp (List.all_eq_true.mp
      (List.all_eq_true.mp hquiet p hp) e (by simp [hsplit, he]))

/-- One step of the search for the definition with the greatest start byte. -/
def laterOf (best : Option Nat) (i : Nat) : Option Nat :=
  match best with
  | none => some i
  | some b => if (a.ownerOf b).start ≤ (a.ownerOf i).start then some i else some b

lemma latestIn_eq_none {region : ByteRange} (h : a.latestIn region = none) {d : Nat}
    {x : LocalDefinition} (hd : a.defs[d]? = some x) : within x.owner region = false := by
  have hfold : ∀ (l : List Nat) (best : Option Nat), l.foldl a.laterOf best = none →
      best = none ∧ l = [] := by
    intro l
    induction l with
    | nil => exact fun best h => ⟨h, rfl⟩
    | cons i l ih =>
      intro best h
      rw [List.foldl_cons] at h
      have hbest := (ih _ h).1
      cases best with
      | none => cases hbest
      | some b =>
        dsimp only [laterOf] at hbest
        split_ifs at hbest
  have hnil := (hfold _ none h).2
  rw [List.filter_eq_nil_iff] at hnil
  have hlt := (List.getElem?_eq_some_iff.mp hd).1
  have hnot := hnil d (List.mem_range.mpr hlt)
  simpa [ownerOf, hd] using hnot

lemma latestIn_lt {region : ByteRange} {d : Nat} (h : a.latestIn region = some d) :
    d < a.defs.length := by
  have hfold : ∀ (l : List Nat) (best : Option Nat), l.foldl a.laterOf best = some d →
      best = some d ∨ d ∈ l := by
    intro l
    induction l with
    | nil => exact fun best h => .inl h
    | cons i l ih =>
      intro best h
      rw [List.foldl_cons] at h
      rcases ih _ h with hbest | hmem
      · cases best with
        | none =>
          cases hbest
          exact .inr (by simp)
        | some b =>
          dsimp only [laterOf] at hbest
          split_ifs at hbest
          · cases hbest
            exact .inr (by simp)
          · exact .inl hbest
      · exact .inr (by simp [hmem])
  rcases hfold _ none h with hnone | hmem
  · cases hnone
  · exact List.mem_range.mp (List.mem_filter.mp hmem).1

/-- A straight leaf generates the definition that its path executes last. -/
lemma leaf_sound (hfew : a.defs.length ≤ maxDefs) {r : Region} (hlocated : a.located r)
    (hstraight : a.straight r) {p : List Event} (hp : p ∈ r.evaluation.paths) {m : Mask}
    {s : Option Nat} (hm : Holds m s) {out : List Mask} (hout : out.length = a.reads.length) :
    Holds (a.genIn r.span m) (lastDef s p) ∧ Covers (a.record r.span m .record out) s p := by
  have hpath := List.all_eq_true.mp hstraight p hp
  simp only [Bool.and_eq_true] at hpath
  refine ⟨?_, record_covers hlocated hp hm
    (fun pre i post hsplit => lastDef_of_readsFirst hpath.1 hsplit s) hout⟩
  unfold genIn
  cases hlatest : a.latestIn r.span with
  | none =>
    -- No definition lies in the region, so the path has none.
    have hnone : lastDef s p = s := by
      apply lastDef_of_reads
      intro e he
      have hin := List.all_eq_true.mp (List.all_eq_true.mp hlocated p hp) e he
      cases e with
      | read i => rfl
      | define d =>
        obtain ⟨x, hx, hwithin⟩ := (Option.any_eq_true _ _).mp hin
        rw [latestIn_eq_none hlatest hx] at hwithin
        cases hwithin
    rw [hnone]
    exact hm
  | some d =>
    rw [hlatest] at hpath
    have hlast : lastDef none p = some d := by simpa using hpath.2
    rw [lastDef_eq_or, hlast]
    intro d' hd'
    cases hd'
    have hlt : d < 128 := Nat.lt_of_lt_of_le (latestIn_lt hlatest) hfew
    simp [hlt]

end Analyzer

end WitcherScriptLanguage
