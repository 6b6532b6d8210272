import WitcherScriptLanguage.Refactor.EditPlan

/-!
# The deletion of statements

A statement goes together with the white space around it (`delete_statement` in
`resolve/edit_plan.rs`). In the code as the parser makes it where there is no error, the deletion
takes nothing of the code beside it.
-/

namespace WitcherScriptLanguage

open Library

namespace SyntaxTree

open Cst

variable (t : SyntaxTree)

def declNameIdents (decl : Node) : List Node :=
  (t.childrenByFieldName decl .names).filter fun n => t.kind n = .ident

def statement (node : Node) : Splice := deleteStatement t.source (t.byteRange node)

/-- A node of the code as the parser makes it where there is no error: it is not empty, and
neither end is white space. -/
structure Proper (q : Node) : Prop where
  has : t.Has q
  inner : q ≠ []
  code : t.kind q ≠ .comment
  nonempty : (t.byteRange q).start < (t.byteRange q).stop
  trimmed : CstNode.Trimmed t.source (t.get q)

def Covers (r : Splice) (q : Node) : Prop :=
  r.start ≤ (t.byteRange q).start ∧ (t.byteRange q).stop ≤ r.stop

instance (r : Splice) (q : Node) : Decidable (t.Covers r q) := inferInstanceAs (Decidable (_ ∧ _))

def Misses (r : Splice) (q : Node) : Prop :=
  (t.byteRange q).stop ≤ r.start ∨ r.stop ≤ (t.byteRange q).start

variable {t} {n p q : Node} {s : Splice}

/-- The two nodes share no text. -/
def Disjoint (t : SyntaxTree) (p q : Node) : Prop :=
  (t.byteRange p).stop ≤ (t.byteRange q).start ∨ (t.byteRange q).stop ≤ (t.byteRange p).start

lemma statement_widens (hn : t.Has n) : Widens t.source (t.byteRange n) (t.statement n) :=
  deleteStatement_widens (start_le_stop hn) hn.valid.start_boundary hn.valid.stop_boundary

lemma covers_statement (hn : t.Has n) : t.Covers (t.statement n) n :=
  ⟨(statement_widens hn).start_le, (statement_widens hn).le_stop⟩

/-- The deletion of a statement takes nothing of the code beside it. -/
lemma misses_statement (hn : t.Has n) (hq : t.Proper q) (hdisjoint : t.Disjoint n q) :
    t.Misses (t.statement n) q := by
  obtain ⟨hfirst, hlast⟩ := hq.trimmed
  have hwidens := statement_widens hn
  rcases hdisjoint with hbehind | hbefore
  · refine .inr ?_
    by_contra hlt
    obtain ⟨c, hc, hblank⟩ := hwidens.blank_after _ hq.has.valid.start_boundary hbehind
      (Nat.lt_of_not_le hlt)
    rw [hfirst c hc] at hblank
    cases hblank
  · refine .inl ?_
    by_contra hlt
    obtain ⟨c, hc, hblank⟩ := hwidens.blank_before _ hq.has.valid.stop_boundary
      (Nat.lt_of_not_le hlt) hbefore
    rw [hlast c hc] at hblank
    cases hblank

/-- The deletions of two statements share no text. -/
lemma disjoint_statements {m : Node} (hm : t.Proper m) (hn : t.Proper n)
    (hle : (t.byteRange m).stop ≤ (t.byteRange n).start) :
    (t.statement m).stop ≤ (t.statement n).start := by
  have hmwidens := statement_widens hm.has
  have hnwidens := statement_widens hn.has
  have hmlt := hm.nonempty
  have hnlt := hn.nonempty
  by_contra hoverlap
  have hoverlap : (t.statement n).start < (t.statement m).stop := Nat.lt_of_not_le hoverlap
  -- Each deletion stops short of the other statement.
  have hstop : (t.statement m).stop ≤ (t.byteRange n).start := by
    rcases misses_statement hm.has hn (.inl hle) with h | h
    · have := hmwidens.start_le
      omega
    · exact h
  have hstart : (t.byteRange m).stop ≤ (t.statement n).start := by
    rcases misses_statement hn.has hm (.inr hle) with h | h
    · exact h
    · have := hnwidens.le_stop
      omega
  -- So the later deletion begins behind a line end, and the earlier one goes past it.
  have hline := hnwidens.line_start (by omega) (by omega)
  rcases Nat.lt_or_eq_of_le hstart with hlt | heq
  · exact hmwidens.last_line _ hnwidens.inText.2.1 hlt hoverlap hline
  · have hlast := hm.trimmed.2 '\n' (by
      have hstops : (t.get m).stop = (t.statement n).start := heq
      rw [hstops, hline]
      rfl)
    cases hlast

lemma not_covers_of_misses {d : Node} (hlt : (t.byteRange d).start < (t.byteRange d).stop)
    (hmisses : t.Misses s d) : ¬t.Covers s d := by
  rintro ⟨hstart, hstop⟩
  rcases hmisses with h | h <;> omega

end SyntaxTree

end WitcherScriptLanguage
