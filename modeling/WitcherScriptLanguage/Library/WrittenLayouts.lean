import WitcherScriptLanguage.Library.Layouts

/-!
# Texts that are being written

A text that grows by lexemes and blanks. It spells the lexemes that have been written as long as
the blanks between them keep them apart; the blanks behind the last lexeme are still open, and one
of them can be taken back.
-/

namespace WitcherScriptLanguage.Library.Lexis

variable {α : Type} (x : Lexis α)

/-- The text spells the lexemes, with such blanks behind the last one. -/
def Writes (text : List α) (lexemes : List (List α)) (gap : List α) : Prop :=
  ∃ layout, x.Spells layout ∧ lexemesOf layout = lexemes ∧ text = textOf layout ++ gap ∧
    ∀ a ∈ gap, x.blank a = true

variable {x} {text gap : List α} {lexemes : List (List α)}

lemma writes_nil : x.Writes [] [] [] :=
  ⟨[], ⟨fun _ hp => absurd hp List.not_mem_nil, List.isChain_nil⟩, rfl, rfl,
    fun _ ha => absurd ha List.not_mem_nil⟩

lemma Writes.blanks (h : x.Writes text lexemes gap) {blanks : List α}
    (hblanks : ∀ a ∈ blanks, x.blank a = true) :
    x.Writes (text ++ blanks) lexemes (gap ++ blanks) := by
  obtain ⟨layout, hspells, hlexemes, htext, hgap⟩ := h
  refine ⟨layout, hspells, hlexemes, ?_, List.forall_mem_append.mpr ⟨hgap, hblanks⟩⟩
  rw [htext, List.append_assoc]

lemma Writes.lexeme (h : x.Writes text lexemes gap) {lexeme : List α}
    (hstarts : x.startsLexeme lexeme = true)
    (hapart : ∀ l ∈ lexemes.getLast?, x.apart l gap lexeme) :
    x.Writes (text ++ lexeme) (lexemes ++ [lexeme]) [] := by
  obtain ⟨layout, hspells, hlexemes, htext, hgap⟩ := h
  have hok : x.Ok ⟨gap, lexeme⟩ := ⟨hgap, x.startsLexeme_iff.mp hstarts⟩
  refine ⟨layout ++ [⟨gap, lexeme⟩], ?_, ?_, ?_, fun _ ha => absurd ha List.not_mem_nil⟩
  · rw [spells_append]
    refine ⟨hspells, spells_singleton.mpr hok, ?_⟩
    intro p hp q hq
    cases Option.mem_some.mp hq
    apply hapart
    rw [← hlexemes, lexemesOf, List.getLast?_map, Option.mem_def.mp hp]
    rfl
  · rw [lexemesOf_append, hlexemes]
    rfl
  · rw [htext, textOf_append, textOf_cons, textOf_nil, List.append_nil, List.append_nil,
      List.append_assoc]

/-- The text ends with the blanks behind the last lexeme, or with the lexeme itself. -/
lemma Writes.getLast? (h : x.Writes text lexemes gap) (hgap : gap = []) :
    text.getLast? = lexemes.getLast?.bind List.getLast? := by
  obtain ⟨layout, hspells, rfl, rfl, -⟩ := h
  rw [hgap, List.append_nil]
  rcases List.eq_nil_or_concat' layout with rfl | ⟨front, p, rfl⟩
  · rfl
  · obtain ⟨a, rest, hlexeme, -, -⟩ := (hspells.ok p (by simp)).starts
    have hne : p.lexeme ≠ [] := by
      rw [hlexeme]
      exact List.cons_ne_nil a rest
    rw [textOf_append, textOf_cons, textOf_nil, List.append_nil, ← List.append_assoc,
      List.getLast?_append_of_ne_nil _ hne, lexemesOf_append, lexemesOf, List.getLast?_append]
    rfl

/-- A blank at the end can be taken back. -/
lemma Writes.dropLast (h : x.Writes text lexemes gap) {a : α} (hlast : text.getLast? = some a)
    (ha : x.blank a = true)
    (hends : ∀ l ∈ lexemes.getLast?, ∀ b ∈ l.getLast?, x.blank b = false) :
    ∃ gap', gap = gap' ++ [a] ∧ x.Writes text.dropLast lexemes gap' := by
  rcases List.eq_nil_or_concat' gap with hnil | ⟨gap', b, rfl⟩
  · rw [h.getLast? hnil] at hlast
    obtain ⟨l, hl, hlast⟩ := Option.bind_eq_some_iff.mp hlast
    have hsolid := hends l hl a hlast
    rw [ha] at hsolid
    cases hsolid
  · obtain ⟨layout, hspells, hlexemes, rfl, hgap⟩ := h
    rw [← List.append_assoc, List.getLast?_concat] at hlast
    cases hlast
    refine ⟨gap', rfl, layout, hspells, hlexemes, ?_, ?_⟩
    · rw [← List.append_assoc, List.dropLast_concat]
    · exact fun b hb => hgap b (List.mem_append_left _ hb)

end WitcherScriptLanguage.Library.Lexis
