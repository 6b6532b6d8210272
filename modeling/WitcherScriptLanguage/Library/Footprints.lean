import Mathlib.Data.Set.Function
import Mathlib.Logic.Function.Basic
import Mathlib.Tactic.Lemma

/-!
# Footprints of programs over a store

A program over a store depends on some cells only and changes some of those. Two programs neither
of which changes a cell of the other can be run in either order.
-/

namespace WitcherScriptLanguage.Library

/-- A program over a store of cells, with a result. -/
abbrev StoreM (ι α : Type) := StateM (ι → α)

variable {ι α β γ : Type} {touched touched' written written' : Set ι}

namespace StoreM

def result (f : StoreM ι α β) (s : ι → α) : β := (f.run s).1

def after (f : StoreM ι α β) (s : ι → α) : ι → α := (f.run s).2

@[simp] lemma result_pure (b : β) (s : ι → α) : result (pure b) s = b := rfl

@[simp] lemma after_pure (b : β) (s : ι → α) : after (pure b : StoreM ι α β) s = s := rfl

@[simp] lemma result_bind (f : StoreM ι α β) (g : β → StoreM ι α γ) (s : ι → α) :
    result (f >>= g) s = result (g (result f s)) (after f s) := rfl

@[simp] lemma after_bind (f : StoreM ι α β) (g : β → StoreM ι α γ) (s : ι → α) :
    after (f >>= g) s = after (g (result f s)) (after f s) := rfl

@[simp] lemma result_get (s : ι → α) : result (get : StoreM ι α (ι → α)) s = s := rfl

@[simp] lemma after_get (s : ι → α) : after (get : StoreM ι α (ι → α)) s = s := rfl

@[simp] lemma after_set (s s' : ι → α) : after (set s' : StoreM ι α Unit) s = s' := rfl

@[simp] lemma after_modify (m : (ι → α) → (ι → α)) (s : ι → α) :
    after (modify m : StoreM ι α Unit) s = m s := rfl

@[simp] lemma result_modify (m : (ι → α) → (ι → α)) (s : ι → α) :
    result (modify m : StoreM ι α Unit) s = () := rfl

@[ext] lemma ext {f g : StoreM ι α β} (hresult : ∀ s, result f s = result g s)
    (hafter : ∀ s, after f s = after g s) : f = g :=
  funext fun s => Prod.ext (hresult s) (hafter s)

end StoreM

open StoreM

/-- The program depends on the cells of `touched` only and changes only those of `written`. -/
structure Footprint (touched written : Set ι) (f : StoreM ι α β) : Prop where
  subset : written ⊆ touched
  frame : ∀ s, Set.EqOn (after f s) s writtenᶜ
  result : ∀ s s', Set.EqOn s s' touched → result f s = result f s'
  after : ∀ s s', Set.EqOn s s' touched → Set.EqOn (after f s) (after f s') touched

namespace Footprint

variable {f : StoreM ι α β} {g : StoreM ι α γ}

lemma pure (h : written ⊆ touched) (b : β) : Footprint touched written (pure b : StoreM ι α β) where
  subset := h
  frame _ := Set.eqOn_refl _ _
  result _ _ _ := rfl
  after _ _ h := h

/-- A part of the store is read. -/
lemma get (h : written ⊆ touched) (view : (ι → α) → β)
    (hview : ∀ s s', Set.EqOn s s' touched → view s = view s') :
    Footprint touched written (do return view (← get) : StoreM ι α β) where
  subset := h
  frame _ := Set.eqOn_refl _ _
  result := hview
  after _ _ h := h

lemma modify (h : written ⊆ touched) (m : (ι → α) → (ι → α))
    (hframe : ∀ s, Set.EqOn (m s) s writtenᶜ)
    (hview : ∀ s s', Set.EqOn s s' touched → Set.EqOn (m s) (m s') touched) :
    Footprint touched written (modify m : StoreM ι α Unit) where
  subset := h
  frame := hframe
  result _ _ _ := rfl
  after := hview

lemma bind {g : β → StoreM ι α γ} (hf : Footprint touched written f)
    (hg : ∀ b, Footprint touched written (g b)) : Footprint touched written (f >>= g) where
  subset := hf.subset
  frame s := ((hg _).frame _).trans (hf.frame s)
  result s s' h := by
    rw [result_bind, result_bind, hf.result s s' h]
    exact (hg _).result _ _ (hf.after s s' h)
  after s s' h := by
    rw [after_bind, after_bind, hf.result s s' h]
    exact (hg _).after _ _ (hf.after s s' h)

/-- What a program leaves alone it does not see change. -/
lemma eqOn_touched (hf : Footprint touched written f) (h : ∀ i ∈ written, i ∉ touched')
    (s : ι → α) :
    Set.EqOn (StoreM.after f s) s touched' :=
  (hf.frame s).mono fun i hi hw => h i hw hi

lemma result_after (hf : Footprint touched written f) (hg : Footprint touched' written' g)
    (h : ∀ i ∈ written, i ∉ touched') (s : ι → α) :
    StoreM.result g (StoreM.after f s) = StoreM.result g s :=
  hg.result _ _ (hf.eqOn_touched h s)

/-- Two programs that leave each other's cells alone reach the same store in either order. -/
theorem after_comm (hf : Footprint touched written f) (hg : Footprint touched' written' g)
    (h : ∀ i ∈ written, i ∉ touched') (h' : ∀ i ∈ written', i ∉ touched) (s : ι → α) :
    StoreM.after g (StoreM.after f s) = StoreM.after f (StoreM.after g s) := by
  funext i
  have hfg := hg.after _ _ (hf.eqOn_touched h s)
  have hgf := hf.after _ _ (hg.eqOn_touched h' s)
  by_cases hi' : i ∈ touched'
  · -- The second program owns the cell.
    have hkept : i ∈ writtenᶜ := fun hw => h i hw hi'
    rw [hfg hi', hf.frame _ hkept]
  · have hkept' : i ∈ written'ᶜ := fun hw => hi' (hg.subset hw)
    rw [hg.frame _ hkept']
    by_cases hi : i ∈ touched
    · exact (hgf hi).symm
    · have hkept : i ∈ writtenᶜ := fun hw => hi (hf.subset hw)
      rw [hf.frame s hkept, hf.frame _ hkept, hg.frame s hkept']

end Footprint

end WitcherScriptLanguage.Library
