import Mathlib.Data.List.AList
import WitcherScriptLanguage.Library.ReadTrees

/-!
# Computations with a memo

A computation that reads a store and also asks for results that are remembered under a key, as the
tree of its possible questions. A result that is not in the table is computed by reads and put
there. Where the key of a result that is asked for decides the computation behind it, remembering
changes neither the result nor the set of the keys that the reads record.
-/

namespace WitcherScriptLanguage.Library

namespace ReadTree

variable {R A β γ K : Type}

def bind : ReadTree R A β → (β → ReadTree R A γ) → ReadTree R A γ
  | done b, f => f b
  | ask r next, f => ask r fun a => (next a).bind f

/-- All computations one after the other, with their results joined. -/
def joined : List (ReadTree R A (List β)) → ReadTree R A (List β)
  | [] => done []
  | tree :: trees => tree.bind fun bs => (joined trees).bind fun bs' => done (bs ++ bs')

variable {read : R → Option (A × List K)}

lemma run_bind (tree : ReadTree R A β) (f : β → ReadTree R A γ) :
    (tree.bind f).run read = (tree.run read).bind fun o =>
      ((f o.1).run read).map fun o' => (o'.1, o.2 ++ o'.2) := by
  induction tree with
  | done b =>
    rw [bind, run, Option.bind_some]
    simp only [List.nil_append]
    exact Option.map_id'.symm
  | ask r next ih =>
    rw [bind, run, run, Option.bind_assoc]
    congr 1
    funext a
    rw [ih, Option.bind_map, Option.map_bind]
    congr 1
    funext o
    simp only [Function.comp_apply, Option.map_map, List.append_assoc]
    rfl

lemma run_joined_cons (tree : ReadTree R A (List β)) (trees : List (ReadTree R A (List β))) :
    (joined (tree :: trees)).run read = (tree.run read).bind fun o =>
      ((joined trees).run read).map fun o' => (o.1 ++ o'.1, o.2 ++ o'.2) := by
  rw [joined, run_bind]
  congr 1
  funext o
  rw [run_bind]
  cases (joined trees).run read with
  | none => rfl
  | some o' => simp [run]

lemma run_joined_append (trees trees' : List (ReadTree R A (List β))) :
    (joined (trees ++ trees')).run read = ((joined trees).run read).bind fun o =>
      ((joined trees').run read).map fun o' => (o.1 ++ o'.1, o.2 ++ o'.2) := by
  induction trees with
  | nil =>
    rw [List.nil_append, joined, run, Option.bind_some]
    simp only [List.nil_append]
    exact Option.map_id'.symm
  | cons tree trees ih =>
    rw [List.cons_append, run_joined_cons, run_joined_cons, ih, Option.bind_assoc]
    congr 1
    funext o
    cases (joined trees).run read with
    | none => rfl
    | some p =>
      simp only [Option.bind_some, Option.map_some, Option.map_map]
      congr 1
      funext o'
      simp only [Function.comp_apply, List.append_assoc]

end ReadTree

/-- Both have no result, or one result and the same keys. -/
def SameOutcome {β K : Type} (a b : Option (β × List K)) : Prop :=
  match a, b with
  | none, none => True
  | some (x, keys), some (y, keys') => x = y ∧ ∀ k, k ∈ keys ↔ k ∈ keys'
  | _, _ => False

namespace SameOutcome

variable {β γ K : Type}

lemma refl (a : Option (β × List K)) : SameOutcome a a := by
  match a with
  | none => trivial
  | some (x, keys) => exact ⟨rfl, fun _ => Iff.rfl⟩

lemma map {a b : Option (β × List K)} (h : SameOutcome a b) (f : β → γ) :
    SameOutcome (a.map fun o => (f o.1, o.2)) (b.map fun o => (f o.1, o.2)) := by
  match a, b with
  | none, none => trivial
  | none, some _ => exact h
  | some _, none => exact h
  | some (x, keys), some (y, keys') =>
    obtain ⟨rfl, hkeys⟩ := h
    exact ⟨rfl, hkeys⟩

lemma append {a b a' b' : Option (List β × List K)} (h : SameOutcome a b)
    (h' : SameOutcome a' b') :
    SameOutcome (a.bind fun o => a'.map fun o' => (o.1 ++ o'.1, o.2 ++ o'.2))
      (b.bind fun o => b'.map fun o' => (o.1 ++ o'.1, o.2 ++ o'.2)) := by
  match a, b with
  | none, none => trivial
  | none, some _ => exact h.elim
  | some _, none => exact h.elim
  | some (x, keys), some (y, keys') =>
    obtain ⟨rfl, hkeys⟩ := h
    match a', b' with
    | none, none => trivial
    | none, some _ => exact h'
    | some _, none => exact h'
    | some (x', used), some (y', used') =>
      obtain ⟨rfl, hused⟩ := h'
      refine ⟨rfl, fun k => ?_⟩
      rw [List.mem_append, List.mem_append, hkeys k, hused k]

end SameOutcome

inductive MemoTree (R A I T β : Type)
  | done (b : β)
  | ask (r : R) (next : A → MemoTree R A I T β)
  | fetch (i : I) (next : T → MemoTree R A I T β)

/-- The table and the keys that the reads have recorded. -/
structure Memory (κ T K : Type) where
  table : AList fun _ : κ => T := ∅
  recorded : List K := []

namespace MemoTree

variable {R A I T β κ K : Type} [DecidableEq κ]

/-- The computation without a table. -/
def plain (compute : I → ReadTree R A T) : MemoTree R A I T β → ReadTree R A β
  | done b => .done b
  | ask r next => .ask r fun a => (next a).plain compute
  | fetch i next => (compute i).bind fun t => (next t).plain compute

/-- The result from the table, or else a new one that the table remembers. -/
def remember (read : R → Option (A × List K)) (compute : I → ReadTree R A T) (key : I → κ) (i : I)
    (m : Memory κ T K) : Option (T × Memory κ T K) :=
  match m.table.lookup (key i) with
  | some t => some (t, m)
  | none => ((compute i).run read).map fun o =>
    (o.1, ⟨m.table.insert (key i) o.1, m.recorded ++ o.2⟩)

def run (read : R → Option (A × List K)) (compute : I → ReadTree R A T) (key : I → κ) :
    MemoTree R A I T β → Memory κ T K → Option (β × Memory κ T K)
  | done b, m => some (b, m)
  | ask r next, m => (read r).bind fun a =>
    (next a.1).run read compute key { m with recorded := m.recorded ++ a.2 }
  | fetch i next, m => (remember read compute key i m).bind fun o =>
    (next o.1).run read compute key o.2

/-- All computations one after the other on one table, with their results joined. -/
def runAll (read : R → Option (A × List K)) (compute : I → ReadTree R A T) (key : I → κ) :
    List (MemoTree R A I T (List β)) → Memory κ T K → Option (List β × Memory κ T K)
  | [], m => some ([], m)
  | tree :: trees, m => (tree.run read compute key m).bind fun o =>
    (runAll read compute key trees o.2).map fun o' => (o.1 ++ o'.1, o'.2)

/-- The computation asks only for such results. -/
def FetchesOnly (Q : I → Prop) : MemoTree R A I T β → Prop
  | done _ => True
  | ask _ next => ∀ a, (next a).FetchesOnly Q
  | fetch i next => Q i ∧ ∀ t, (next t).FetchesOnly Q

/-- Of the results that may be asked for, those with one key are computed alike. -/
def KeyDecides (Q : I → Prop) (compute : I → ReadTree R A T) (key : I → κ) : Prop :=
  ∀ i j, Q i → Q j → key i = key j → compute i = compute j

section

variable {Q : I → Prop} {read : R → Option (A × List K)} {compute : I → ReadTree R A T}
  {key : I → κ}

/-- What the table holds has been computed, and the reads behind it are recorded. -/
def Coherent (Q : I → Prop) (read : R → Option (A × List K)) (compute : I → ReadTree R A T)
    (key : I → κ) (m : Memory κ T K) : Prop :=
  ∀ i t, Q i → m.table.lookup (key i) = some t →
    ∃ keys, (compute i).run read = some (t, keys) ∧ ∀ k ∈ keys, k ∈ m.recorded

/-- The run with a table has the result of the plain run, and has recorded the same keys. -/
def Agrees (Q : I → Prop) (read : R → Option (A × List K)) (compute : I → ReadTree R A T)
    (key : I → κ) (m : Memory κ T K) (concrete : Option (β × Memory κ T K))
    (plain : Option (β × List K)) : Prop :=
  match concrete, plain with
  | none, none => True
  | some (b, m'), some (b', keys) => b = b' ∧ Coherent Q read compute key m' ∧
    ∀ k, k ∈ m'.recorded ↔ k ∈ m.recorded ∨ k ∈ keys
  | _, _ => False

lemma coherent_empty (recorded : List K) : Coherent Q read compute key ⟨∅, recorded⟩ := by
  intro i t _ h
  rw [AList.lookup_empty] at h
  exact absurd h (Option.some_ne_none t).symm

lemma Coherent.record {m : Memory κ T K} (h : Coherent Q read compute key m) (keys : List K) :
    Coherent Q read compute key { m with recorded := m.recorded ++ keys } := by
  intro i t hi hlookup
  obtain ⟨used, hrun, hused⟩ := h i t hi hlookup
  exact ⟨used, hrun, fun k hk => List.mem_append_left _ (hused k hk)⟩

lemma Coherent.insert {m : Memory κ T K} (h : Coherent Q read compute key m)
    (hkey : KeyDecides Q compute key) {i : I} (hi : Q i) {t : T} {keys : List K}
    (hrun : (compute i).run read = some (t, keys)) :
    Coherent Q read compute key ⟨m.table.insert (key i) t, m.recorded ++ keys⟩ := by
  intro j t' hj hlookup
  by_cases hsame : key j = key i
  · rw [hsame, AList.lookup_insert] at hlookup
    rw [← Option.some.inj hlookup, hkey j i hj hi hsame]
    exact ⟨keys, hrun, fun k hk => List.mem_append_right _ hk⟩
  · rw [AList.lookup_insert_ne hsame] at hlookup
    exact h.record keys j t' hj hlookup

lemma Agrees.bind {γ : Type} {m : Memory κ T K} {concrete : Option (β × Memory κ T K)}
    {plain : Option (β × List K)} (h : Agrees Q read compute key m concrete plain)
    {f : β → Memory κ T K → Option (γ × Memory κ T K)} {g : β → Option (γ × List K)}
    (hnext : ∀ b m', Coherent Q read compute key m' → Agrees Q read compute key m' (f b m') (g b)) :
    Agrees Q read compute key m (concrete.bind fun o => f o.1 o.2)
      (plain.bind fun o => (g o.1).map fun o' => (o'.1, o.2 ++ o'.2)) := by
  match concrete, plain with
  | none, none => trivial
  | none, some _ => exact h.elim
  | some _, none => exact h.elim
  | some (b, m'), some (b', keys) =>
    obtain ⟨rfl, hcoherent, hrecorded⟩ := h
    have hbehind := hnext b m' hcoherent
    simp only [Option.bind_some]
    match f b m', g b, hbehind with
    | none, none, _ => trivial
    | none, some _, hbehind => exact hbehind
    | some _, none, hbehind => exact hbehind
    | some (c, m''), some (c', keys'), hbehind =>
      obtain ⟨hresult, hcoherent', hrecorded'⟩ := hbehind
      refine ⟨hresult, hcoherent', ?_⟩
      intro k
      rw [hrecorded' k, hrecorded k, List.mem_append, or_assoc]

lemma Agrees.sameOutcome {table : AList fun _ : κ => T} {concrete : Option (β × Memory κ T K)}
    {plain : Option (β × List K)} (h : Agrees Q read compute key ⟨table, []⟩ concrete plain) :
    SameOutcome (concrete.map fun o => (o.1, o.2.recorded)) plain := by
  match concrete, plain with
  | none, none => trivial
  | none, some _ => exact h
  | some _, none => exact h
  | some (b, m'), some (b', keys) =>
    obtain ⟨hresult, -, hrecorded⟩ := h
    refine ⟨hresult, fun k => ?_⟩
    rw [hrecorded k]
    simp only [List.not_mem_nil, false_or]

lemma Agrees.map {γ : Type} {m : Memory κ T K} {concrete : Option (β × Memory κ T K)}
    {plain : Option (β × List K)} (h : Agrees Q read compute key m concrete plain) (f : β → γ) :
    Agrees Q read compute key m (concrete.map fun o => (f o.1, o.2))
      (plain.map fun o => (f o.1, o.2)) := by
  match concrete, plain with
  | none, none => trivial
  | none, some _ => exact h
  | some _, none => exact h
  | some (b, m'), some (b', keys) =>
    obtain ⟨rfl, hrest⟩ := h
    exact ⟨rfl, hrest⟩

lemma agrees_read (r : R) {m : Memory κ T K} (hm : Coherent Q read compute key m) :
    Agrees Q read compute key m
      ((read r).map fun a => (a.1, { m with recorded := m.recorded ++ a.2 })) (read r) := by
  cases read r with
  | none => trivial
  | some a =>
    refine ⟨rfl, hm.record a.2, fun k => ?_⟩
    exact List.mem_append

/-- A remembered result would be computed again, and its reads are recorded. -/
lemma agrees_remember (hkey : KeyDecides Q compute key) {i : I} (hi : Q i)
    {m : Memory κ T K} (hm : Coherent Q read compute key m) :
    Agrees Q read compute key m (remember read compute key i m) ((compute i).run read) := by
  unfold remember
  cases hlookup : m.table.lookup (key i) with
  | some t =>
    obtain ⟨keys, hrun, hrecorded⟩ := hm i t hi hlookup
    rw [hrun]
    refine ⟨rfl, hm, fun k => ?_⟩
    constructor
    · exact Or.inl
    · exact fun h => h.elim id (hrecorded k)
  | none =>
    cases hrun : (compute i).run read with
    | none => trivial
    | some o => exact ⟨rfl, hm.insert hkey hi hrun, fun k => List.mem_append⟩

theorem agrees_run (hkey : KeyDecides Q compute key)
    {tree : MemoTree R A I T β} (htree : tree.FetchesOnly Q) {m : Memory κ T K}
    (hm : Coherent Q read compute key m) :
    Agrees Q read compute key m (tree.run read compute key m) ((tree.plain compute).run read) := by
  induction tree generalizing m with
  | done b =>
    refine ⟨rfl, hm, fun k => ?_⟩
    simp only [List.not_mem_nil, or_false]
  | ask r next ih =>
    have hread := (agrees_read r hm).bind
      (f := fun a m => (next a).run read compute key m) fun a m' hm' => ih a (htree a) hm'
    rw [Option.bind_map] at hread
    exact hread
  | fetch i next ih =>
    rw [run, plain, ReadTree.run_bind]
    exact (agrees_remember hkey htree.1 hm).bind fun t m' hm' => ih t (htree.2 t) hm'

theorem agrees_runAll (hkey : KeyDecides Q compute key)
    {trees : List (MemoTree R A I T (List β))} (htrees : ∀ tree ∈ trees, tree.FetchesOnly Q)
    {m : Memory κ T K} (hm : Coherent Q read compute key m) :
    Agrees Q read compute key m (runAll read compute key trees m)
      ((ReadTree.joined (trees.map (plain compute))).run read) := by
  induction trees generalizing m with
  | nil =>
    refine ⟨rfl, hm, fun k => ?_⟩
    simp only [List.not_mem_nil, or_false]
  | cons tree trees ih =>
    rw [List.forall_mem_cons] at htrees
    have hall := (agrees_run hkey htrees.1 hm).bind
      (f := fun bs m => (runAll read compute key trees m).map fun o => (bs ++ o.1, o.2))
      fun bs m' hm' => (ih htrees.2 hm').map fun bs' => bs ++ bs'
    rw [runAll, List.map_cons, ReadTree.run_joined_cons]
    simp only [Option.map_map] at hall
    exact hall

end

end MemoTree

end WitcherScriptLanguage.Library
