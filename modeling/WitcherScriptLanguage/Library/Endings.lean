import WitcherScriptLanguage.Library.Footprints

/-!
# Programs that end alike

Two programs with the same results, whose stores agree in the visible cells, and in all cells
wherever the result lets the program around them go on.
-/

namespace WitcherScriptLanguage.Library

variable {ι α β γ : Type}

/-- `goesOn` says after which results the rest of the store still matters. -/
def EndAlike (visible : Set ι) (goesOn : β → Bool) (f g : StoreM ι α β) : Prop :=
  ∀ s, g.result s = f.result s ∧ Set.EqOn (g.after s) (f.after s) visible ∧
    (goesOn (f.result s) = true → g.after s = f.after s)

namespace EndAlike

variable {visible : Set ι} {goesOn : β → Bool} {goesOn' : γ → Bool} {f g h : StoreM ι α β}

lemma refl (f : StoreM ι α β) : EndAlike visible goesOn f f :=
  fun _ => ⟨rfl, Set.eqOn_refl _ _, fun _ => rfl⟩

lemma of_eq (heq : f = g) : EndAlike visible goesOn f g := heq ▸ refl f

lemma trans (hfg : EndAlike visible goesOn f g) (hgh : EndAlike visible goesOn g h) :
    EndAlike visible goesOn f h := by
  intro s
  obtain ⟨hresult, hvisible, hafter⟩ := hfg s
  obtain ⟨hresult', hvisible', hafter'⟩ := hgh s
  refine ⟨hresult'.trans hresult, hvisible'.trans hvisible, fun hgo => ?_⟩
  exact (hafter' (hresult ▸ hgo)).trans (hafter hgo)

/-- A continuation that passes on the results after which nothing goes on. -/
lemma bind (hfg : EndAlike visible goesOn f g) {k : β → StoreM ι α γ}
    (hk : ∀ b, goesOn b = false → ∃ c, k b = pure c ∧ goesOn' c = false) :
    EndAlike visible goesOn' (f >>= k) (g >>= k) := by
  intro s
  obtain ⟨hresult, hvisible, hafter⟩ := hfg s
  rw [StoreM.result_bind, StoreM.result_bind, StoreM.after_bind, StoreM.after_bind, hresult]
  cases hgo : goesOn (f.result s) with
  | true =>
    rw [hafter hgo]
    exact ⟨rfl, Set.eqOn_refl _ _, fun _ => rfl⟩
  | false =>
    obtain ⟨c, hc, hstop⟩ := hk _ hgo
    rw [hc]
    refine ⟨rfl, hvisible, fun hgo' => ?_⟩
    rw [StoreM.result_pure, hstop] at hgo'
    cases hgo'

lemma bind_left (c : StoreM ι α γ) {k k' : γ → StoreM ι α β}
    (hk : ∀ b, EndAlike visible goesOn (k b) (k' b)) :
    EndAlike visible goesOn (c >>= k) (c >>= k') := fun s => hk (c.result s) (c.after s)

end EndAlike

end WitcherScriptLanguage.Library
