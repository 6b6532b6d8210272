import Mathlib.Data.List.Basic
import Mathlib.Tactic.Lemma

/-!
# Computations that read a store

A computation that learns about a store only through reads, as the tree of its possible reads. A
read answers and records keys, or has no answer. When the store changes and the change reports
keys, a read is covered if it keeps its answer unless the change reports a key that it recorded;
a computation whose reads are covered keeps its result unless the change reports one of its keys.
-/

namespace WitcherScriptLanguage.Library

inductive ReadTree (R A β : Type)
  | done (b : β)
  | ask (r : R) (next : A → ReadTree R A β)

namespace ReadTree

variable {R A β K : Type}

/-- The result with all recorded keys. -/
def run (read : R → Option (A × List K)) : ReadTree R A β → Option (β × List K)
  | done b => some (b, [])
  | ask r next => (read r).bind fun a => ((next a.1).run read).map fun o => (o.1, a.2 ++ o.2)

/-- The reads that the computation makes. -/
def asked (read : R → Option (A × List K)) : ReadTree R A β → List R
  | done _ => []
  | ask r next => r :: ((read r).map fun a => (next a.1).asked read).getD []

lemma asked_ask_done (read : R → Option (A × List K)) (r : R) (f : A → β) :
    (ask r fun a => done (f a)).asked read = [r] := by
  unfold asked
  cases read r <;> rfl

/-- A read keeps its answer unless one of its keys is reported. -/
def Covered (read read' : R → Option (A × List K)) (reported : List K) (r : R) : Prop :=
  ∀ a, read r = some a → (∀ k ∈ a.2, k ∉ reported) → read' r = some a

theorem run_eq_of_covered {read read' : R → Option (A × List K)} {reported : List K}
    {tree : ReadTree R A β} {o : β × List K}
    (hcovered : ∀ r ∈ tree.asked read, Covered read read' reported r)
    (hrun : tree.run read = some o) (hunreported : ∀ k ∈ o.2, k ∉ reported) :
    tree.run read' = some o := by
  induction tree generalizing o with
  | done b => exact hrun
  | ask r next ih =>
    obtain ⟨a, hread, hrest⟩ := Option.bind_eq_some_iff.mp hrun
    obtain ⟨o', hrun', rfl⟩ := Option.map_eq_some_iff.mp hrest
    have hasked : (ask r next).asked read = r :: (next a.1).asked read := by
      rw [asked, hread, Option.map_some, Option.getD_some]
    rw [hasked] at hcovered
    have hread' : read' r = some a := hcovered r List.mem_cons_self a hread
      fun k hk => hunreported k (List.mem_append_left _ hk)
    have hnext : (next a.1).run read' = some o' :=
      ih a.1 (fun r' hr' => hcovered r' (List.mem_cons_of_mem r hr')) hrun'
        fun k hk => hunreported k (List.mem_append_right _ hk)
    rw [run, hread', Option.bind_some, hnext, Option.map_some]

end ReadTree

end WitcherScriptLanguage.Library
