import WitcherScriptLanguage.Refactor.OperatorGrammar

/-!
# The operator table is unambiguous

A parser for the operator table that goes from the left to the right. It finds every expression of
the grammar, so tokens are read as one expression at most.
-/

namespace WitcherScriptLanguage.Operators

def unaryOp? : Sym → Option UnaryOp
  | .minus => some .neg
  | .bang => some .not
  | .tilde => some .bitNot
  | .plus => some .plus
  | _ => none

def binaryOp? : Sym → Option BinaryOp
  | .star => some .mul
  | .slash => some .div
  | .percent => some .mod
  | .plus => some .add
  | .minus => some .sub
  | .lt => some .lt
  | .le => some .le
  | .gt => some .gt
  | .ge => some .ge
  | .eqEq => some .eq
  | .bangEq => some .ne
  | .amp => some .bitAnd
  | .caret => some .bitXor
  | .bar => some .bitOr
  | .ampAmp => some .and
  | .barBar => some .or
  | _ => none

def assignOp? : Sym → Option AssignOp
  | .eq => some .assign
  | .plusEq => some .add
  | .minusEq => some .sub
  | .starEq => some .mul
  | .slashEq => some .div
  | .ampEq => some .bitAnd
  | .barEq => some .bitOr
  | _ => none

/-- The rest of a cast behind its bracket. -/
def castType? : List Token → Option (String × List Token)
  | .typeName type :: .sym .rparen :: rest => some (type, rest)
  | _ => none

/-- The level at which a token goes on with an expression in front of it. -/
def joinLevel : Token → Option Nat
  | .sym .dot | .sym .lparen | .sym .lbrack => some postfixLevel
  | .sym .inSym => some prefixLevel
  | .sym .question => some ternaryLevel
  | .sym .comma => some commaLevel
  | .sym s =>
    match binaryOp? s with
    | some op => some op.level
    | none => (assignOp? s).map fun _ => assignLevel
  | _ => none

/-- The first expression of the level and the tokens behind it. It goes on with the expression that
is read already, if there is one. -/
def scan : Nat → Nat → Option Expr → List Token → Option (Expr × List Token)
  | 0, _, _, _ => none
  | n + 1, k, none, ts =>
    match ts with
    | .atom a text :: rest => scan n k (some (.atom a text)) rest
    | .sym .lparen :: rest =>
      match castType? rest with
      | some (type, rest) =>
        (scan n prefixLevel none rest).bind fun r => scan n k (some (.cast type r.1)) r.2
      | none =>
        match scan n assignLevel none rest with
        | some (e, .sym .rparen :: rest) => scan n k (some (.nested e)) rest
        | _ => none
    | .sym .new :: .typeName cls :: rest =>
      match rest with
      | .sym .inSym :: rest =>
        (scan n prefixLevel none rest).bind fun r => scan n k (some (.newIn cls r.1)) r.2
      | _ => scan n k (some (.new cls)) rest
    | .sym s :: rest =>
      match unaryOp? s with
      | some op =>
        (scan n prefixLevel none rest).bind fun r => scan n k (some (.unary op r.1)) r.2
      | none => none
    | _ => none
  | n + 1, k, some e, ts =>
    match ts with
    | .sym .dot :: .member name :: rest => scan n k (some (.member e name)) rest
    | .sym .lparen :: rest =>
      match rest with
      | .sym .rparen :: rest => scan n k (some (.callNone e)) rest
      | _ =>
        match scan n commaLevel none rest with
        | some (args, .sym .rparen :: rest) => scan n k (some (.call e args)) rest
        | _ => none
    | .sym .lbrack :: rest =>
      match scan n assignLevel none rest with
      | some (i, .sym .rbrack :: rest) => scan n k (some (.array e i)) rest
      | _ => none
    | .sym .question :: rest =>
      if ternaryLevel ≤ k then
        match scan n assignLevel none rest with
        | some (onTrue, .sym .colon :: rest) =>
          (scan n ternaryLevel none rest).bind fun r =>
            scan n k (some (.ternary e onTrue r.1)) r.2
        | _ => none
      else some (e, ts)
    | .sym .comma :: rest =>
      if commaLevel ≤ k then
        (scan n commaLevel none rest).bind fun r => scan n k (some (.comma e r.1)) r.2
      else some (e, ts)
    | .sym s :: rest =>
      match binaryOp? s with
      | some op =>
        if op.level ≤ k then
          (scan n (op.level - 1) none rest).bind fun r => scan n k (some (.binary op e r.1)) r.2
        else some (e, ts)
      | none =>
        match assignOp? s with
        | some op =>
          if assignLevel ≤ k then
            (scan n assignLevel none rest).bind fun r => scan n k (some (.assign op e r.1)) r.2
          else some (e, ts)
        | none => some (e, ts)
    | _ => some (e, ts)

section Steps

variable {n k : Nat} {e : Expr} {rest : List Token}

lemma scan_unary (op : UnaryOp) : scan (n + 1) k none (.sym op.sym :: rest) =
    (scan n prefixLevel none rest).bind fun r => scan n k (some (.unary op r.1)) r.2 := by
  cases op <;> rfl

lemma scan_nested (h : castType? rest = none) : scan (n + 1) k none (.sym .lparen :: rest) =
    match scan n assignLevel none rest with
    | some (e, .sym .rparen :: rest) => scan n k (some (.nested e)) rest
    | _ => none := by
  simp only [scan, h]

lemma scan_new (cls : String) (h : rest.head? ≠ some (.sym .inSym)) :
    scan (n + 1) k none (.sym .new :: .typeName cls :: rest) =
      scan n k (some (.new cls)) rest := by
  cases rest with
  | nil => rfl
  | cons t rest =>
    cases t with
    | sym s =>
      cases s with
      | inSym => exact absurd rfl h
      | _ => rfl
    | _ => rfl

lemma scan_binary (op : BinaryOp) (h : op.level ≤ k) :
    scan (n + 1) k (some e) (.sym op.sym :: rest) =
      (scan n (op.level - 1) none rest).bind fun r => scan n k (some (.binary op e r.1)) r.2 := by
  cases op <;> exact if_pos h

lemma scan_assign (op : AssignOp) (h : assignLevel ≤ k) :
    scan (n + 1) k (some e) (.sym op.sym :: rest) =
      (scan n assignLevel none rest).bind fun r => scan n k (some (.assign op e r.1)) r.2 := by
  cases op <;> exact if_pos h

lemma scan_call (h : rest.head? ≠ some (.sym .rparen)) :
    scan (n + 1) k (some e) (.sym .lparen :: rest) =
      match scan n commaLevel none rest with
      | some (args, .sym .rparen :: rest) => scan n k (some (.call e args)) rest
      | _ => none := by
  cases rest with
  | nil => rfl
  | cons t rest =>
    cases t with
    | sym s =>
      cases s with
      | rparen => exact absurd rfl h
      | _ => rfl
    | _ => rfl

end Steps

/-- No token of the level or a tighter one goes on. -/
def Stops (k : Nat) (rest : List Token) : Prop := ∀ t ∈ rest.head?, ∀ l ∈ joinLevel t, k < l

/-- What is behind the expression must be looser than its last operand. -/
def Expr.edge : Expr → Nat
  | atom _ _ | nested _ | member _ _ | callNone _ | call _ _ | array _ _ => 0
  | new _ | newIn _ _ | unary _ _ | cast _ _ => prefixLevel
  | binary op _ _ => op.level - 1
  | ternary _ _ _ => ternaryLevel
  | assign _ _ _ => assignLevel
  | comma _ _ => commaLevel

lemma Expr.edge_le_level (e : Expr) : e.edge ≤ e.level := by
  cases e with
  | binary op left right => exact Nat.sub_le _ _
  | _ => exact Nat.le_of_ble_eq_true rfl

lemma Expr.one_le_level (e : Expr) : 1 ≤ e.level := by
  cases e with
  | binary op left right => exact Nat.le_of_lt (Nat.lt_of_succ_lt op.prefix_lt_level)
  | _ => exact Nat.le_of_ble_eq_true rfl

lemma Expr.edge_eq_zero {e : Expr} (h : e.level ≤ postfixLevel) : e.edge = 0 := by
  cases e with
  | binary op left right => exact absurd h (Nat.not_le_of_lt (Nat.lt_of_succ_lt op.prefix_lt_level))
  | atom a text => rfl
  | nested e => rfl
  | member base name => rfl
  | callNone callee => rfl
  | call callee args => rfl
  | array base i => rfl
  | _ => exact absurd h (Nat.not_le_of_lt (Nat.le_of_ble_eq_true rfl))

/-- An operator does not go on with the last operand of what it may follow. -/
lemma Expr.edge_lt {e : Expr} {op : BinaryOp} (h : e.level ≤ op.level) : e.edge < op.level := by
  have hop := op.prefix_lt_level
  have hternary := op.level_lt_ternary
  cases e with
  | binary op' left right =>
    have hop' := op'.prefix_lt_level
    change op'.level - 1 < op.level
    change op'.level ≤ op.level at h
    omega
  | ternary cond onTrue onFalse => exact absurd h (Nat.not_le_of_lt hternary)
  | assign op' left right => exact absurd h (Nat.not_le_of_lt (Nat.lt_succ_of_lt hternary))
  | comma first rest =>
    exact absurd h (Nat.not_le_of_lt (Nat.lt_succ_of_lt (Nat.lt_succ_of_lt hternary)))
  | new cls => exact hop
  | newIn cls lifetime => exact hop
  | unary op' e => exact hop
  | cast type e => exact hop
  | _ => exact Nat.zero_lt_of_lt hop

lemma joinLevel_binary (op : BinaryOp) : joinLevel (.sym op.sym) = some op.level := by
  cases op <;> rfl

lemma joinLevel_assign (op : AssignOp) : joinLevel (.sym op.sym) = some assignLevel := by
  cases op <;> rfl

lemma joinLevel_pos {t : Token} {l : Nat} (h : joinLevel t = some l) : 0 < l := by
  cases t with
  | sym s => cases s <;> cases h <;> exact Nat.le_of_ble_eq_true rfl
  | _ => cases h

lemma stops_zero (rest : List Token) : Stops 0 rest := fun _ _ _ hl => joinLevel_pos hl

lemma stops_cons {k l : Nat} {t : Token} {rest : List Token} (h : joinLevel t = some l)
    (hkl : k < l) : Stops k (t :: rest) := by
  intro t' ht' l' hl'
  cases ht'
  rw [h] at hl'
  cases hl'
  exact hkl

lemma stops_close {k : Nat} {t : Token} {rest : List Token} (h : joinLevel t = none) :
    Stops k (t :: rest) := by
  intro t' ht' l' hl'
  cases ht'
  rw [h] at hl'
  cases hl'

lemma Stops.mono {k l : Nat} {rest : List Token} (h : Stops l rest) (hkl : k ≤ l) :
    Stops k rest := fun t ht m hm => Nat.lt_of_le_of_lt hkl (h t ht m hm)

lemma scan_stop {n k : Nat} {e : Expr} {rest : List Token} (h : Stops k rest) (hk : 1 ≤ k) :
    scan (n + 1) k (some e) rest = some (e, rest) := by
  cases rest with
  | nil => rfl
  | cons t rest =>
    cases t with
    | sym s =>
      cases s <;> first | rfl | exact absurd (h _ rfl _ rfl) (Nat.not_lt_of_le hk) |
        exact if_neg (Nat.not_le_of_lt (h _ rfl _ rfl))
    | _ => rfl

def startsExpr : Token → Bool
  | .atom _ _ | .sym .lparen | .sym .new => true
  | .sym s => (unaryOp? s).isSome
  | _ => false

/-- A token that an expression starts with comes first. -/
def Starts (ts : List Token) : Prop := ∃ t rest, ts = t :: rest ∧ startsExpr t = true

lemma Starts.append {ts : List Token} (h : Starts ts) (us : List Token) : Starts (ts ++ us) := by
  obtain ⟨t, rest, rfl, hstarts⟩ := h
  exact ⟨t, rest ++ us, rfl, hstarts⟩

lemma starts_tokens (e : Expr) : Starts e.tokens := by
  induction e with
  | atom a text => exact ⟨_, _, rfl, rfl⟩
  | nested e ih => exact ⟨_, _, rfl, rfl⟩
  | member base name ih => exact ih.append _
  | callNone callee ih => exact ih.append _
  | call callee args ih ih' => exact ih.append _
  | array base i ih ih' => exact ih.append _
  | new cls => exact ⟨_, _, rfl, rfl⟩
  | newIn cls lifetime ih => exact ⟨_, _, rfl, rfl⟩
  | unary op e ih => exact ⟨_, _, rfl, by cases op <;> rfl⟩
  | cast type e ih => exact ⟨_, _, rfl, rfl⟩
  | binary op left right ih ih' => exact ih.append _
  | ternary cond onTrue onFalse ih ih' ih'' => exact ih.append _
  | assign op left right ih ih' => exact ih.append _
  | comma first rest ih ih' => exact ih.append _

lemma castType?_tokens (e : Expr) (rest : List Token) : castType? (e.tokens ++ rest) = none := by
  obtain ⟨t, ts, htokens, hstarts⟩ := starts_tokens e
  rw [htokens]
  cases t with
  | typeName name => cases hstarts
  | _ => rfl

lemma head?_tokens_ne (e : Expr) (rest : List Token) :
    (e.tokens ++ rest).head? ≠ some (.sym .rparen) := by
  obtain ⟨t, ts, htokens, hstarts⟩ := starts_tokens e
  rw [htokens]
  intro hhead
  cases hhead
  cases hstarts

/-- The steps until the expression is read. The operands behind the first one are read on the
side. -/
def Expr.steps : Expr → Nat
  | atom _ _ | nested _ | new _ | newIn _ _ | unary _ _ | cast _ _ => 1
  | member base _ => base.steps + 1
  | callNone callee => callee.steps + 1
  | call callee _ => callee.steps + 1
  | array base _ => base.steps + 1
  | binary _ left _ => left.steps + 1
  | ternary cond _ _ => cond.steps + 1
  | assign _ left _ => left.steps + 1
  | comma first _ => first.steps + 1

/-- Enough for the expression and for the end of it. -/
def Expr.fuel : Expr → Nat
  | atom _ _ | new _ => 2
  | nested e => e.fuel + 1
  | member base _ => base.fuel + 1
  | callNone callee => callee.fuel + 1
  | call callee args => callee.fuel + args.fuel
  | array base i => base.fuel + i.fuel
  | newIn _ lifetime => lifetime.fuel + 1
  | unary _ e => e.fuel + 1
  | cast _ e => e.fuel + 1
  | binary _ left right => left.fuel + right.fuel
  | ternary cond onTrue onFalse => cond.fuel + onTrue.fuel + onFalse.fuel
  | assign _ left right => left.fuel + right.fuel
  | comma first rest => first.fuel + rest.fuel

lemma Expr.steps_lt_fuel (e : Expr) : 1 ≤ e.steps ∧ e.steps < e.fuel := by
  induction e <;> simp only [steps, fuel] <;> omega

lemma Expr.exists_succ {e : Expr} {N : Nat} (h : e.fuel ≤ N) : ∃ n, N = n + 1 := by
  have hsteps := e.steps_lt_fuel
  exact ⟨N - 1, by omega⟩

section Scan

variable {N k : Nat} {rest : List Token}

/-- The expression is read and the parser goes on behind it. -/
def Expr.Scanned (e : Expr) : Prop := ∀ N k rest, e.fuel ≤ N → e.level ≤ k → Stops e.edge rest →
  scan N k none (e.tokens ++ rest) = scan (N - e.steps) k (some e) rest

/-- Where nothing of the level goes on, the expression is all that is read. -/
lemma Expr.Scanned.operand {e : Expr} (h : e.Scanned) (hN : e.fuel ≤ N) (hk : e.level ≤ k)
    (hstops : Stops k rest) : scan N k none (e.tokens ++ rest) = some (e, rest) := by
  have hsteps := e.steps_lt_fuel
  have hone := Nat.le_trans e.one_le_level hk
  obtain ⟨n, hn⟩ : ∃ n, N - e.steps = n + 1 := ⟨N - e.steps - 1, by omega⟩
  rw [h N k rest hN hk (hstops.mono (Nat.le_trans e.edge_le_level hk)), hn, scan_stop hstops hone]

/-- A token behind an expression goes on with it. -/
lemma Expr.Scanned.join {e : Expr} (h : e.Scanned) (hN : e.fuel ≤ N) (hk : e.level ≤ k)
    (hstops : Stops e.edge rest) : ∃ n, N = e.steps + (n + 1) ∧ N - (e.steps + 1) = n ∧
      scan N k none (e.tokens ++ rest) = scan (n + 1) k (some e) rest := by
  have hsteps := e.steps_lt_fuel
  refine ⟨N - e.steps - 1, by omega, by omega, ?_⟩
  rw [h N k rest hN hk hstops]
  congr 1
  omega

/-- The base of a member access, a call or an array access. -/
lemma Expr.Scanned.joinBase {e : Expr} (h : e.Scanned) (hN : e.fuel ≤ N)
    (hlevel : e.level ≤ postfixLevel) (hk : postfixLevel ≤ k) :
    ∃ n, N = e.steps + (n + 1) ∧ N - (e.steps + 1) = n ∧
      scan N k none (e.tokens ++ rest) = scan (n + 1) k (some e) rest := by
  refine h.join hN (Nat.le_trans hlevel hk) ?_
  rw [edge_eq_zero hlevel]
  exact stops_zero rest

end Scan

theorem scanned {e : Expr} (hok : e.Ok) : e.Scanned := by
  induction e with
  | atom a text =>
    intro N k rest hN _ _
    obtain ⟨n, rfl⟩ := Expr.exists_succ hN
    rfl
  | nested e ih =>
    intro N k rest hN _ _
    obtain ⟨n, rfl⟩ := Expr.exists_succ hN
    have hinner := (ih hok.1).operand (Nat.le_of_succ_le_succ hN) hok.2
      (@stops_close _ (.sym .rparen) rest rfl)
    rw [Expr.tokens, List.cons_append, List.append_assoc, scan_nested (castType?_tokens e _),
      List.singleton_append, hinner]
    rfl
  | member base name ih =>
    intro N k rest hN hk _
    obtain ⟨n, hn, hsteps, hbase⟩ := (ih hok.1).joinBase (Nat.le_of_succ_le hN) hok.2 hk
    rw [Expr.tokens, List.append_assoc, hbase]
    rw [Expr.steps, hsteps]
    rfl
  | callNone callee ih =>
    intro N k rest hN hk _
    obtain ⟨n, hn, hsteps, hcallee⟩ := (ih hok.1).joinBase (Nat.le_of_succ_le hN) hok.2 hk
    rw [Expr.tokens, List.append_assoc, hcallee]
    rw [Expr.steps, hsteps]
    rfl
  | call callee args ih ih' =>
    intro N k rest hN hk _
    simp only [Expr.fuel] at hN
    have hcalleeSteps := callee.steps_lt_fuel
    obtain ⟨n, hn, hsteps, hcallee⟩ := (ih hok.1.1).joinBase (Nat.le_trans (Nat.le_add_right _ _) hN)
      hok.1.2 hk
    have hargs := (ih' hok.2.1).operand (show args.fuel ≤ n by omega) hok.2.2
      (@stops_close _ (.sym .rparen) rest rfl)
    rw [Expr.tokens, List.append_assoc, hcallee, List.cons_append, List.append_assoc,
      List.singleton_append, scan_call (head?_tokens_ne args _), hargs, Expr.steps, hsteps]
  | array base i ih ih' =>
    intro N k rest hN hk _
    simp only [Expr.fuel] at hN
    have hbaseSteps := base.steps_lt_fuel
    obtain ⟨n, hn, hsteps, hbase⟩ := (ih hok.1.1).joinBase (Nat.le_trans (Nat.le_add_right _ _) hN)
      hok.1.2 hk
    have hindex := (ih' hok.2.1).operand (show i.fuel ≤ n by omega) hok.2.2
      (@stops_close _ (.sym .rbrack) rest rfl)
    rw [Expr.tokens, List.append_assoc, hbase, List.cons_append, List.append_assoc,
      List.singleton_append, Expr.steps, hsteps]
    simp only [scan, hindex]
  | new cls =>
    intro N k rest hN _ hstops
    obtain ⟨n, rfl⟩ := Expr.exists_succ hN
    refine scan_new cls fun hhead => ?_
    exact absurd (hstops _ hhead _ rfl) (Nat.lt_irrefl prefixLevel)
  | newIn cls lifetime ih =>
    intro N k rest hN _ hstops
    obtain ⟨n, rfl⟩ := Expr.exists_succ hN
    have hlifetime := (ih hok.1).operand (Nat.le_of_succ_le_succ hN) hok.2 hstops
    simp only [Expr.tokens, List.cons_append, scan, hlifetime]
    rfl
  | unary op e ih =>
    intro N k rest hN _ hstops
    obtain ⟨n, rfl⟩ := Expr.exists_succ hN
    have hoperand := (ih hok.1).operand (Nat.le_of_succ_le_succ hN) hok.2 hstops
    rw [Expr.tokens, List.cons_append, scan_unary, hoperand]
    rfl
  | cast type e ih =>
    intro N k rest hN _ hstops
    obtain ⟨n, rfl⟩ := Expr.exists_succ hN
    have hoperand := (ih hok.1).operand (Nat.le_of_succ_le_succ hN) hok.2 hstops
    simp only [Expr.tokens, List.cons_append, scan, castType?, hoperand]
    rfl
  | binary op left right ih ih' =>
    intro N k rest hN hk hstops
    simp only [Expr.fuel] at hN
    have hleftSteps := left.steps_lt_fuel
    obtain ⟨n, hn, hsteps, hleft⟩ := (ih hok.1.1).join (Nat.le_trans (Nat.le_add_right _ _) hN)
      (Nat.le_trans hok.1.2 hk) (@stops_cons _ _ _ (right.tokens ++ rest) (joinLevel_binary op)
        (Expr.edge_lt hok.1.2))
    have hright := (ih' hok.2.1).operand (show right.fuel ≤ n by omega) hok.2.2 hstops
    rw [Expr.tokens, List.append_assoc, List.cons_append, hleft, scan_binary op hk, hright,
      Expr.steps, hsteps]
    rfl
  | ternary cond onTrue onFalse ih ih' ih'' =>
    intro N k rest hN hk hstops
    simp only [Expr.fuel] at hN
    have hcondSteps := cond.steps_lt_fuel
    have hcondEdge := Nat.le_trans cond.edge_le_level hok.1.2
    obtain ⟨n, hn, hsteps, hcond⟩ := (ih hok.1.1).join (show cond.fuel ≤ N by omega)
      (Nat.le_trans hok.1.2 (Nat.le_trans (Nat.sub_le _ _) hk))
      (@stops_cons _ ternaryLevel (.sym .question)
        (onTrue.tokens ++ .sym .colon :: (onFalse.tokens ++ rest)) rfl
        (Nat.lt_succ_of_le hcondEdge))
    have honTrue := (ih' hok.2.1.1).operand (show onTrue.fuel ≤ n by omega) hok.2.1.2
      (@stops_close _ (.sym .colon) (onFalse.tokens ++ rest) rfl)
    have honFalse := (ih'' hok.2.2.1).operand (show onFalse.fuel ≤ n by omega) hok.2.2.2 hstops
    have htokens : (Expr.ternary cond onTrue onFalse).tokens ++ rest = cond.tokens ++
        .sym .question :: (onTrue.tokens ++ .sym .colon :: (onFalse.tokens ++ rest)) := by
      simp [Expr.tokens]
    have hlevel : ternaryLevel ≤ k := hk
    rw [htokens, hcond, Expr.steps, hsteps]
    simp only [scan, if_pos hlevel, honTrue, honFalse]
    rfl
  | assign op left right ih ih' =>
    intro N k rest hN hk hstops
    simp only [Expr.fuel] at hN
    have hleftSteps := left.steps_lt_fuel
    have hleftEdge := Nat.le_trans left.edge_le_level hok.1.2
    obtain ⟨n, hn, hsteps, hleft⟩ := (ih hok.1.1).join (Nat.le_trans (Nat.le_add_right _ _) hN)
      (Nat.le_trans hok.1.2 (Nat.le_trans (Nat.sub_le _ _) hk))
      (@stops_cons _ _ _ (right.tokens ++ rest) (joinLevel_assign op)
        (Nat.lt_succ_of_le hleftEdge))
    have hright := (ih' hok.2.1).operand (show right.fuel ≤ n by omega) hok.2.2 hstops
    rw [Expr.tokens, List.append_assoc, List.cons_append, hleft, scan_assign op hk, hright,
      Expr.steps, hsteps]
    rfl
  | comma first others ih ih' =>
    intro N k rest hN hk hstops
    simp only [Expr.fuel] at hN
    have hfirstSteps := first.steps_lt_fuel
    have hfirstEdge := Nat.le_trans first.edge_le_level hok.1.2
    obtain ⟨n, hn, hsteps, hfirst⟩ := (ih hok.1.1).join (Nat.le_trans (Nat.le_add_right _ _) hN)
      (Nat.le_trans hok.1.2 (Nat.le_trans (Nat.le_succ _) hk))
      (@stops_cons _ commaLevel (.sym .comma) (others.tokens ++ rest) rfl
        (Nat.lt_succ_of_le hfirstEdge))
    have hothers := (ih' hok.2.1).operand (show others.fuel ≤ n by omega) hok.2.2 hstops
    have hlevel : commaLevel ≤ k := hk
    rw [Expr.tokens, List.append_assoc, List.cons_append, hfirst, Expr.steps, hsteps]
    simp only [scan, if_pos hlevel, hothers]
    rfl

/-- Tokens are one expression at most. -/
theorem parses_unique {k k' : Nat} {ts : List Token} {e e' : Expr} (h : Parses k ts e)
    (h' : Parses k' ts e') : e = e' := by
  obtain ⟨htokens, hok, hlevel⟩ := parses_iff.mp h
  obtain ⟨htokens', hok', hlevel'⟩ := parses_iff.mp h'
  have hnil : Stops (max k k') [] := fun t ht => by cases ht
  have hscan := (scanned hok).operand (Nat.le_max_left e.fuel e'.fuel)
    (Nat.le_trans hlevel (Nat.le_max_left k k')) hnil
  have hscan' := (scanned hok').operand (Nat.le_max_right e.fuel e'.fuel)
    (Nat.le_trans hlevel' (Nat.le_max_right k k')) hnil
  rw [htokens] at hscan
  rw [htokens', hscan] at hscan'
  exact congrArg Prod.fst (Option.some.inj hscan')

end WitcherScriptLanguage.Operators
