import WitcherScriptLanguage.Library.CommonAffixes
import WitcherScriptLanguage.Library.Numerals
import WitcherScriptLanguage.Library.Runs
import WitcherScriptLanguage.Lsp.CstCache

/-!
# Semantic token deltas

`semantic_tokens_cache.rs` and `queries/semantic_tokens.rs`: the server keeps, for each document,
the last array of tokens that it sent with a result id. A client that names this id is told what
has changed, in one edit between a common prefix and a common suffix of whole tokens. Requests run
on threads, so each access to the shared state is a step.
-/

namespace WitcherScriptLanguage

open Library

structure SemanticToken where
  deltaLine : UInt32
  deltaStart : UInt32
  length : UInt32
  tokenType : UInt32
  tokenModifiersBitset : UInt32
  deriving DecidableEq, Repr

/-- Offsets count integers, five for each token. -/
structure SemanticTokensEdit where
  start : UInt32
  deleteCount : UInt32
  data : Option (List SemanticToken)
  deriving DecidableEq, Repr

/-- Chunks of five integers; fewer than five at the end are dropped. -/
def semanticTokenStructs : List UInt32 → List SemanticToken
  | deltaLine :: deltaStart :: length :: tokenType :: tokenModifiersBitset :: rest =>
    ⟨deltaLine, deltaStart, length, tokenType, tokenModifiersBitset⟩ :: semanticTokenStructs rest
  | _ => []

/-- Saturates: offsets on the wire are `u32`. -/
def wireU32 (n : Nat) : UInt32 := UInt32.ofNatClamp n

/-- How many tokens the arrays begin with alike. -/
def commonPrefix (previous current : List UInt32) : Nat :=
  commonCount (semanticTokenStructs previous) (semanticTokenStructs current)

/-- How many tokens the arrays end with alike, without those of the common prefix. -/
def commonSuffix (previous current : List UInt32) : Nat :=
  let maxSuffix := min (previous.length / 5) (current.length / 5) - commonPrefix previous current
  commonCountUpTo maxSuffix (semanticTokenStructs previous).reverse
    (semanticTokenStructs current).reverse

def semanticTokenEdits (previous current : List UInt32) : List SemanticTokensEdit :=
  let previousTokens := previous.length / 5
  let currentTokens := current.length / 5
  let front := commonPrefix previous current
  let back := commonSuffix previous current
  if previousTokens = currentTokens ∧ front = previousTokens then []
  else
    let inserted := (current.drop (front * 5)).take (current.length - back * 5 - front * 5)
    [{ start := wireU32 (front * 5)
       deleteCount := wireU32 ((previousTokens - front - back) * 5)
       data := some (semanticTokenStructs inserted) }]

def SemanticToken.integers (token : SemanticToken) : List UInt32 :=
  [token.deltaLine, token.deltaStart, token.length, token.tokenType, token.tokenModifiersBitset]

/-- The array of tokens on the wire. -/
def wireData (tokens : List SemanticToken) : List UInt32 := tokens.flatMap SemanticToken.integers

def applyEdit (array : List UInt32) (edit : SemanticTokensEdit) : List UInt32 :=
  array.take edit.start.toNat ++ wireData (edit.data.getD []) ++
    array.drop (edit.start.toNat + edit.deleteCount.toNat)

def applyEdits (array : List UInt32) (edits : List SemanticTokensEdit) : List UInt32 :=
  edits.foldl applyEdit array

/-- An array of whole tokens. -/
def IsTokenArray (data : List UInt32) : Prop := 5 ∣ data.length

instance (data : List UInt32) : Decidable (IsTokenArray data) :=
  inferInstanceAs (Decidable (5 ∣ data.length))

/-- The edit between the arrays starts and deletes within what the wire can tell. -/
def FitsWire (previous current : List UInt32) : Prop :=
  commonPrefix previous current * 5 < UInt32.size ∧
    (previous.length / 5 - commonPrefix previous current - commonSuffix previous current) * 5 <
      UInt32.size

instance (previous current : List UInt32) : Decidable (FitsWire previous current) :=
  inferInstanceAs (Decidable (_ ∧ _))

@[simp] lemma wireData_nil : wireData [] = [] := rfl

lemma wireData_cons (token : SemanticToken) (tokens : List SemanticToken) :
    wireData (token :: tokens) = token.integers ++ wireData tokens := rfl

lemma wireData_append (tokens tokens' : List SemanticToken) :
    wireData (tokens ++ tokens') = wireData tokens ++ wireData tokens' := by
  rw [wireData, List.flatMap_append, wireData, wireData]

@[simp] lemma length_wireData (tokens : List SemanticToken) :
    (wireData tokens).length = tokens.length * 5 := by
  induction tokens with
  | nil => rfl
  | cons token tokens ih =>
    rw [wireData_cons, List.length_append, ih, List.length_cons, SemanticToken.integers]
    simp only [List.length_cons, List.length_nil]
    omega

@[simp] lemma semanticTokenStructs_wireData (tokens : List SemanticToken) :
    semanticTokenStructs (wireData tokens) = tokens := by
  induction tokens with
  | nil => rfl
  | cons token tokens ih =>
    rw [wireData_cons, SemanticToken.integers]
    simp only [List.cons_append, List.nil_append, semanticTokenStructs]
    rw [ih]

lemma isTokenArray_wireData (tokens : List SemanticToken) : IsTokenArray (wireData tokens) := by
  rw [IsTokenArray, length_wireData]
  exact dvd_mul_left 5 _

lemma IsTokenArray.append {data data' : List UInt32} (h : IsTokenArray data)
    (h' : IsTokenArray data') : IsTokenArray (data ++ data') := by
  rw [IsTokenArray, List.length_append]
  exact Nat.dvd_add h h'

/-- Nothing is dropped of whole tokens. -/
lemma wireData_semanticTokenStructs {data : List UInt32} (h : IsTokenArray data) :
    wireData (semanticTokenStructs data) = data := by
  obtain ⟨count, hcount⟩ := h
  induction count generalizing data with
  | zero =>
    rw [List.length_eq_zero_iff.mp hcount]
    rfl
  | succ count ih =>
    rcases data with _ | ⟨a, _ | ⟨b, _ | ⟨c, _ | ⟨d, _ | ⟨e, rest⟩⟩⟩⟩⟩
    all_goals simp only [List.length_nil, List.length_cons] at hcount
    all_goals try omega
    rw [semanticTokenStructs, wireData_cons, ih (by omega)]
    rfl

lemma take_wireData (tokens : List SemanticToken) (n : Nat) :
    (wireData tokens).take (n * 5) = wireData (tokens.take n) := by
  induction n generalizing tokens with
  | zero => simp
  | succ n ih =>
    cases tokens with
    | nil => simp
    | cons token tokens =>
      rw [Nat.succ_mul, wireData_cons, SemanticToken.integers]
      simp only [List.cons_append, List.nil_append, List.take_succ_cons]
      rw [ih, wireData_cons, SemanticToken.integers]
      simp only [List.cons_append, List.nil_append]

lemma drop_wireData (tokens : List SemanticToken) (n : Nat) :
    (wireData tokens).drop (n * 5) = wireData (tokens.drop n) := by
  induction n generalizing tokens with
  | zero => simp
  | succ n ih =>
    cases tokens with
    | nil => simp
    | cons token tokens =>
      rw [Nat.succ_mul, wireData_cons, SemanticToken.integers]
      simp only [List.cons_append, List.nil_append, List.drop_succ_cons]
      exact ih tokens

section RoundTrip

variable {previous current : List UInt32}

lemma commonSuffix_le (previous current : List UInt32) :
    commonSuffix previous current ≤
      min (previous.length / 5) (current.length / 5) - commonPrefix previous current :=
  commonCountUpTo_le_limit _ _ _

/-- Unless the offsets are too large, an edit replaces what stands between the common prefix and
the common suffix. -/
theorem applyEdits_semanticTokenEdits (hprevious : IsTokenArray previous)
    (hcurrent : IsTokenArray current) (hfits : FitsWire previous current) :
    applyEdits previous (semanticTokenEdits previous current) = current := by
  obtain ⟨old, rfl⟩ : ∃ old, wireData old = previous :=
    ⟨_, wireData_semanticTokenStructs hprevious⟩
  obtain ⟨new, rfl⟩ : ∃ new, wireData new = current :=
    ⟨_, wireData_semanticTokenStructs hcurrent⟩
  have hfront := commonCount_le_min old new
  have hback := commonSuffix_le (wireData old) (wireData new)
  have hcommon : commonSuffix (wireData old) (wireData new) ≤
      commonCount old.reverse new.reverse := by
    simp only [commonSuffix, semanticTokenStructs_wireData]
    exact commonCountUpTo_le_commonCount _ _ _
  obtain ⟨hstart, hdelete⟩ := hfits
  rw [semanticTokenEdits]
  simp only [commonPrefix, semanticTokenStructs_wireData, length_wireData,
    Nat.mul_div_cancel _ (by omega : 0 < 5)] at hback hstart hdelete ⊢
  generalize commonSuffix (wireData old) (wireData new) = back at *
  split_ifs with hsame
  · obtain ⟨hlength, hall⟩ := hsame
    rw [eq_of_commonCount_eq_length hlength hall, applyEdits, List.foldl_nil]
  · have hinserted : ((wireData new).drop (commonCount old new * 5)).take
        (new.length * 5 - back * 5 - commonCount old new * 5) =
        wireData ((new.drop (commonCount old new)).take
          (new.length - back - commonCount old new)) := by
      rw [drop_wireData, ← take_wireData]
      congr 1
      omega
    have hend : commonCount old new * 5 + (old.length - commonCount old new - back) * 5 =
        (old.length - back) * 5 := by omega
    rw [applyEdits, List.foldl_cons, List.foldl_nil, applyEdit, wireU32, wireU32,
      UInt32.toNat_ofNatClamp_of_lt hstart, UInt32.toNat_ofNatClamp_of_lt hdelete,
      Option.getD_some, hinserted, semanticTokenStructs_wireData, hend, take_wireData,
      drop_wireData]
    have hmiddle := congrArg wireData (replace_middle (Nat.le_refl (commonCount old new)) hcommon
      (by omega))
    rwa [wireData_append, wireData_append] at hmiddle

end RoundTrip

/-- Tokens that are all alike. -/
def zeroTokens (count : Nat) : List UInt32 := wireData (List.replicate count ⟨0, 0, 0, 0, 0⟩)

lemma zeroTokens_eq (count : Nat) : zeroTokens count = List.replicate (count * 5) 0 := by
  have hfive : SemanticToken.integers ⟨0, 0, 0, 0, 0⟩ = List.replicate 5 0 := rfl
  rw [zeroTokens, wireData, List.flatMap_replicate, hfive, List.flatten_replicate_replicate]

/-- The start of an insertion behind too many tokens is moved to the front. -/
lemma applyEdits_append_ne {count : Nat} (hcount : UInt32.size ≤ count * 5) :
    applyEdits (zeroTokens count)
        (semanticTokenEdits (zeroTokens count) (zeroTokens count ++ [1, 0, 0, 0, 0])) ≠
      zeroTokens count ++ [1, 0, 0, 0, 0] := by
  let added : SemanticToken := ⟨1, 0, 0, 0, 0⟩
  have hcurrent : zeroTokens count ++ [1, 0, 0, 0, 0] =
      wireData (List.replicate count ⟨0, 0, 0, 0, 0⟩ ++ [added]) := by
    rw [wireData_append]
    rfl
  have hfront : commonPrefix (zeroTokens count) (zeroTokens count ++ [1, 0, 0, 0, 0]) = count := by
    rw [hcurrent, zeroTokens, commonPrefix, semanticTokenStructs_wireData,
      semanticTokenStructs_wireData, commonCount_append_self, List.length_replicate]
  have hprevious : (zeroTokens count).length = count * 5 := by
    rw [zeroTokens, length_wireData, List.length_replicate]
  have hlength : (zeroTokens count ++ [1, 0, 0, 0, 0]).length = (count + 1) * 5 := by
    rw [hcurrent, length_wireData, List.length_append, List.length_replicate,
      List.length_singleton]
  have hback : commonSuffix (zeroTokens count) (zeroTokens count ++ [1, 0, 0, 0, 0]) = 0 := by
    have hle := commonSuffix_le (zeroTokens count) (zeroTokens count ++ [1, 0, 0, 0, 0])
    rw [hfront, hprevious, hlength] at hle
    omega
  have hinserted : ((zeroTokens count ++ [1, 0, 0, 0, 0]).drop (count * 5)).take
      ((count + 1) * 5 - 0 * 5 - count * 5) = wireData [added] := by
    rw [← hprevious, List.drop_left, hprevious, List.take_of_length_le]
    · rfl
    · simp only [List.length_cons, List.length_nil]
      omega
  have hedits : semanticTokenEdits (zeroTokens count) (zeroTokens count ++ [1, 0, 0, 0, 0]) =
      [⟨wireU32 (count * 5), wireU32 0, some [added]⟩] := by
    rw [semanticTokenEdits]
    simp only [hfront, hback, hprevious, hlength, hinserted, semanticTokenStructs_wireData]
    rw [if_neg (by omega)]
    simp
  have hstart : (wireU32 (count * 5)).toNat = UInt32.size - 1 :=
    UInt32.toNat_ofNatClamp_of_le hcount
  have hlast : UInt32.size - 1 < count * 5 := by
    have hpos : 0 < UInt32.size := by decide
    omega
  intro hall
  -- The first integer of the new token stands where the last offset of the wire points.
  have hat := congrArg (fun l => l[UInt32.size - 1]?) hall
  have hbefore : ((zeroTokens count).take (UInt32.size - 1)).length = UInt32.size - 1 := by
    rw [List.length_take, hprevious]
    omega
  simp only [hedits, applyEdits, List.foldl_cons, List.foldl_nil, applyEdit, hstart,
    Option.getD_some] at hat
  rw [List.append_assoc, List.getElem?_append_right (Nat.le_of_eq hbefore), hbefore, Nat.sub_self,
    List.getElem?_append_left (by simp : 0 < (wireData [added]).length),
    List.getElem?_append_left (by rwa [hprevious]), zeroTokens_eq,
    List.getElem?_replicate_of_lt hlast] at hat
  exact absurd hat (by decide)

/-! ### Requests -/

inductive TokenRequest
  | full
  | delta (previousResultId : String)
  | range (within : SourceRange)
  deriving DecidableEq, Repr

/-- The part of the document that is asked for. -/
def TokenRequest.limit : TokenRequest → Option SourceRange
  | full | delta _ => none
  | range within => some within

inductive TokenReply
  /-- The document is not known. -/
  | absent
  | contentModified (message : String)
  | tokens (resultId : Option String) (data : List SemanticToken)
  | tokensDelta (resultId : Option String) (edits : List SemanticTokensEdit)
  deriving DecidableEq, Repr

def TokenReply.resultId : TokenReply → Option String
  | absent | contentModified _ => none
  | tokens resultId _ | tokensDelta resultId _ => resultId

structure CachedSemanticTokens where
  resultId : String
  data : List UInt32
  deriving DecidableEq, Repr

/-- A request between two accesses to the shared state. -/
inductive TokenTask
  /-- The snapshot has been loaded. -/
  | loaded (uri : Url) (request : TokenRequest) (snapshot : Snapshot)
  /-- The tokens of a document of the snapshot are collected while the state version stays. -/
  | collecting (uri : Url) (request : TokenRequest) (snapshot : Snapshot)
      (document : ParsedDocument) (version : Nat)
  /-- The answer has a result id. -/
  | answering (uri : Url) (request : TokenRequest) (resultId : String) (data : List UInt32)

def TokenTask.resultId : TokenTask → Option String
  | loaded _ _ _ | collecting _ _ _ _ _ => none
  | answering _ _ resultId _ => some resultId

structure TokenServer where
  snapshot : Snapshot := {}
  /-- The parse versions that pending edits lead to. -/
  pendingTargets : AList (fun _ : Url => UInt64) := ∅
  stateVersion : Nat := 0
  semanticTokensCache : AList (fun _ : Url => CachedSemanticTokens) := ∅
  semanticTokensResultId : UInt64 := 0
  /-- How many result ids have been given. This is history. -/
  issued : Nat := 0
  tasks : List TokenTask := []

/-- What a client is sent. The array that the reply stands for is history. -/
structure TokenAnswer where
  uri : Url
  request : TokenRequest
  reply : TokenReply
  array : List UInt32 := []

/-- The collector of the tokens of a document, whole or in a range; it encodes whole tokens. -/
structure TokenCollection where
  collect : Snapshot → Url → ParsedDocument → Option SourceRange → List UInt32
  whole : ∀ snapshot uri document range, IsTokenArray (collect snapshot uri document range)

namespace TokenServer

inductive Event
  /-- Opening, editing, indexing and closing publish snapshots. -/
  | publish (snapshot : Snapshot)
  | enqueue (pendingTargets : AList (fun _ : Url => UInt64))
  | raiseVersion
  /-- The end of `did_close`. -/
  | forget (uri : Url)
  | request (uri : Url) (request : TokenRequest)
  /-- A request looks at the pending edits and at the state version. -/
  | start (i : Nat)
  /-- The collector ends, or stops when it sees the state version advance. -/
  | collect (i : Nat) (stops : Bool)
  | answer (i : Nat)

variable (collection : TokenCollection) (s : TokenServer)

/-- The counter gives the next result id and goes on. -/
def nextSemanticTokensResultId : String × TokenServer :=
  (toString s.semanticTokensResultId.toNat,
    { s with semanticTokensResultId := s.semanticTokensResultId + 1, issued := s.issued + 1 })

/-- The start of a request on a loaded snapshot. -/
def startTask (i : Nat) (uri : Url) (request : TokenRequest) (snapshot : Snapshot) :
    TokenServer × List TokenAnswer :=
  match snapshot.documents.lookup uri with
  | none => ({ s with tasks := s.tasks.eraseIdx i }, [⟨uri, request, .absent, []⟩])
  | some document =>
    let target := (s.pendingTargets.lookup uri).getD 0
    if target > document.parseVersion then
      ({ s with tasks := s.tasks.eraseIdx i }, [⟨uri, request,
        .contentModified "document edited while computing semantic tokens", []⟩])
    else
      ({ s with tasks :=
          s.tasks.set i (.collecting uri request snapshot document s.stateVersion) }, [])

/-- A collector that has not stopped answers a range at once; the other answers need an id. -/
def endCollection (i : Nat) (uri : Url) (request : TokenRequest) (data : List UInt32) :
    TokenServer × List TokenAnswer :=
  match request with
  | .range _ => ({ s with tasks := s.tasks.eraseIdx i },
      [⟨uri, request, .tokens none (semanticTokenStructs data), data⟩])
  | .full | .delta _ =>
    let (resultId, s) := s.nextSemanticTokensResultId
    ({ s with tasks := s.tasks.set i (.answering uri request resultId data) }, [])

/-- The reply to a request whose result id has been given. -/
def replyTo (uri : Url) (request : TokenRequest) (resultId : String) (data : List UInt32) :
    TokenReply :=
  match request with
  | .full | .range _ => .tokens (some resultId) (semanticTokenStructs data)
  | .delta previousResultId =>
    match s.semanticTokensCache.lookup uri with
    | some previous =>
      if previous.resultId = previousResultId then
        .tokensDelta (some resultId) (semanticTokenEdits previous.data data)
      else .tokens (some resultId) (semanticTokenStructs data)
    -- An unknown id is answered with the full payload.
    | none => .tokens (some resultId) (semanticTokenStructs data)

/-- One step and what it sends; `none` when the event cannot happen. -/
def advance : Event → Option (TokenServer × List TokenAnswer)
  | .publish snapshot => some ({ s with snapshot }, [])
  | .enqueue pendingTargets => some ({ s with pendingTargets }, [])
  | .raiseVersion => some ({ s with stateVersion := s.stateVersion + 1 }, [])
  | .forget uri => some ({ s with semanticTokensCache := s.semanticTokensCache.erase uri }, [])
  | .request uri request =>
    some ({ s with tasks := s.tasks ++ [.loaded uri request s.snapshot] }, [])
  | .start i =>
    match s.tasks[i]? with
    | some (.loaded uri request snapshot) => some (s.startTask i uri request snapshot)
    | _ => none
  | .collect i stops =>
    match s.tasks[i]? with
    | some (.collecting uri request snapshot document version) =>
      if stops then
        if s.stateVersion = version then none
        else some ({ s with tasks := s.tasks.eraseIdx i }, [⟨uri, request,
          .contentModified "document changed while computing semantic tokens", []⟩])
      else
        some (s.endCollection i uri request
          (collection.collect snapshot uri document request.limit))
    | _ => none
  | .answer i =>
    match s.tasks[i]? with
    | some (.answering uri request resultId data) =>
      some ({ s with
          semanticTokensCache := s.semanticTokensCache.insert uri ⟨resultId, data⟩
          tasks := s.tasks.eraseIdx i },
        [⟨uri, request, s.replyTo uri request resultId data, data⟩])
    | _ => none

def step (e : Event) : Option TokenServer := (s.advance collection e).map Prod.fst

def sends (e : Event) : List TokenAnswer := ((s.advance collection e).map Prod.snd).getD []

end TokenServer

/-- The arrays that were sent for a document under a result id, in their order. -/
def sentFor (uri : Url) (answers : List TokenAnswer) : List (String × List UInt32) :=
  (answers.filter fun a => a.uri = uri).filterMap fun a =>
    a.reply.resultId.map fun resultId => (resultId, a.array)

section Tasks

variable {α β : Type} {l : List α} {i : Nat} {a : α}

lemma filterMap_perm_of_getElem? (f : α → Option β) (h : l[i]? = some a) :
    (l.filterMap f).Perm ((f a).toList ++ (l.eraseIdx i).filterMap f) := by
  obtain ⟨hlt, rfl⟩ := List.getElem?_eq_some_iff.mp h
  have hperm := (List.getElem_cons_eraseIdx_perm hlt).symm.filterMap f
  rw [List.filterMap_cons] at hperm
  cases hf : f l[i] <;> simpa [hf] using hperm

lemma filterMap_set_perm (f : α → Option β) (h : l[i]? = some a) (b : α) :
    ((l.set i b).filterMap f).Perm ((f b).toList ++ (l.eraseIdx i).filterMap f) := by
  obtain ⟨hlt, rfl⟩ := List.getElem?_eq_some_iff.mp h
  have hperm := (List.set_perm_cons_eraseIdx hlt b).filterMap f
  rw [List.filterMap_cons] at hperm
  cases hf : f b <;> simpa [hf] using hperm

end Tasks

/-- The id that the counter gives after so many ids. -/
def resultIdAt (count : Nat) : String := toString (UInt64.ofNat count).toNat

/-- Ids repeat only when the counter has come round. -/
lemma resultIdAt_injOn {i j : Nat} (hi : i < 2 ^ 64) (hj : j < 2 ^ 64)
    (h : resultIdAt i = resultIdAt j) : i = j := by
  have hdigits := toDigits_injective (by omega) (by omega) (String.ofList_injective h)
  rwa [UInt64.toNat_ofNat_of_lt' hi, UInt64.toNat_ofNat_of_lt' hj] at hdigits

/-! ### The cache holds what was sent last -/

/-- The ids that replies carry or will carry. -/
def TokenServer.resultIds (s : TokenServer) (answers : List TokenAnswer) : List String :=
  s.tasks.filterMap TokenTask.resultId ++ answers.filterMap fun a => a.reply.resultId

structure TokenInv (s : TokenServer) (answers : List TokenAnswer) : Prop where
  counter : s.semanticTokensResultId = UInt64.ofNat s.issued
  cached : ∀ uri c, s.semanticTokensCache.lookup uri = some c →
    IsTokenArray c.data ∧ (sentFor uri answers).getLast? = some (c.resultId, c.data)
  answering : ∀ uri request resultId data,
    TokenTask.answering uri request resultId data ∈ s.tasks → IsTokenArray data
  given : ∀ id ∈ s.resultIds answers, ∃ k < s.issued, id = resultIdAt k
  distinct : s.issued ≤ 2 ^ 64 → (s.resultIds answers).Nodup

/-- A delta is computed against the array that was sent last for the document, under the id that
the request names. -/
def DeltaOk (before : List TokenAnswer) (answer : TokenAnswer) : Prop :=
  ∀ resultId edits, answer.reply = .tokensDelta resultId edits →
    ∃ previousResultId previous, answer.request = .delta previousResultId ∧
      (sentFor answer.uri before).getLast? = some (previousResultId, previous) ∧
      edits = semanticTokenEdits previous answer.array ∧
      IsTokenArray previous ∧ IsTokenArray answer.array

/-- A reply without a result id that is no delta. -/
def TokenReply.IsPlain (reply : TokenReply) : Prop :=
  reply.resultId = none ∧ ∀ resultId edits, reply ≠ .tokensDelta resultId edits

lemma TokenReply.isPlain_absent : IsPlain absent := ⟨rfl, fun _ _ h => by cases h⟩

lemma TokenReply.isPlain_contentModified (message : String) : IsPlain (contentModified message) :=
  ⟨rfl, fun _ _ h => by cases h⟩

lemma TokenReply.isPlain_tokens (data : List SemanticToken) : IsPlain (tokens none data) :=
  ⟨rfl, fun _ _ h => by cases h⟩

lemma TokenReply.IsPlain.deltaOk {answer : TokenAnswer} (h : answer.reply.IsPlain)
    (before : List TokenAnswer) : DeltaOk before answer :=
  fun resultId edits hreply => absurd hreply (h.2 resultId edits)

/-- A step sends one answer or none. -/
def AtMostOne (P : TokenAnswer → Prop) (sent : List TokenAnswer) : Prop :=
  sent = [] ∨ ∃ answer, sent = [answer] ∧ P answer

lemma sentFor_append (uri : Url) (answers answers' : List TokenAnswer) :
    sentFor uri (answers ++ answers') = sentFor uri answers ++ sentFor uri answers' := by
  rw [sentFor, List.filter_append, List.filterMap_append, sentFor, sentFor]

lemma sentFor_of_resultId_eq_some {answer : TokenAnswer} {resultId : String}
    (h : answer.reply.resultId = some resultId) :
    sentFor answer.uri [answer] = [(resultId, answer.array)] := by
  simp [sentFor, h]

lemma sentFor_of_ne {answer : TokenAnswer} {uri : Url} (h : answer.uri ≠ uri) :
    sentFor uri [answer] = [] := by
  simp [sentFor, h]

namespace TokenInv

variable {s : TokenServer} {answers : List TokenAnswer}

/-- A step that gives no id and leaves the cache alone. -/
lemma of_resultIds (h : TokenInv s answers) {s' : TokenServer} {sent : List TokenAnswer}
    (hcounter : s'.semanticTokensResultId = s.semanticTokensResultId)
    (hissued : s'.issued = s.issued)
    (hcache : ∀ uri c, s'.semanticTokensCache.lookup uri = some c →
      s.semanticTokensCache.lookup uri = some c)
    (htasks : ∀ uri request resultId data,
      TokenTask.answering uri request resultId data ∈ s'.tasks →
        TokenTask.answering uri request resultId data ∈ s.tasks)
    (hsent : ∀ answer ∈ sent, answer.reply.resultId = none)
    (hids : (s'.tasks.filterMap TokenTask.resultId).Perm (s.tasks.filterMap TokenTask.resultId)) :
    TokenInv s' (answers ++ sent) := by
  have hnone : sent.filterMap (fun a => a.reply.resultId) = [] := by
    rw [List.filterMap_eq_nil_iff]
    exact hsent
  have hsentFor (uri : Url) : sentFor uri sent = [] := by
    rw [sentFor, List.filterMap_eq_nil_iff]
    intro answer hanswer
    rw [hsent answer (List.mem_filter.mp hanswer).1, Option.map_none]
  have hperm : (s'.resultIds (answers ++ sent)).Perm (s.resultIds answers) := by
    rw [TokenServer.resultIds, TokenServer.resultIds, List.filterMap_append, hnone,
      List.append_nil]
    exact hids.append_right _
  refine ⟨by rw [hcounter, hissued, h.counter], ?_, ?_, ?_, ?_⟩
  · intro uri c hc
    rw [sentFor_append, hsentFor, List.append_nil]
    exact h.cached uri c (hcache uri c hc)
  · intro uri request resultId data hmem
    exact h.answering uri request resultId data (htasks uri request resultId data hmem)
  · intro id hid
    rw [hissued]
    exact h.given id (hperm.mem_iff.mp hid)
  · intro hle
    rw [hissued] at hle
    exact hperm.nodup_iff.mpr (h.distinct hle)

/-- A task that has no result id yet ends. -/
lemma erase (h : TokenInv s answers) {i : Nat} {task : TokenTask} (htask : s.tasks[i]? = some task)
    (hid : task.resultId = none) {sent : List TokenAnswer}
    (hsent : ∀ answer ∈ sent, answer.reply.resultId = none) :
    TokenInv { s with tasks := s.tasks.eraseIdx i } (answers ++ sent) := by
  refine h.of_resultIds rfl rfl (fun _ _ hc => hc) (fun _ _ _ _ hmem => List.mem_of_mem_eraseIdx hmem)
    hsent ?_
  have hperm := filterMap_perm_of_getElem? TokenTask.resultId htask
  rw [hid] at hperm
  exact hperm.symm

/-- A request goes on without a result id. -/
lemma set (h : TokenInv s answers) {i : Nat} {task task' : TokenTask}
    (htask : s.tasks[i]? = some task) (hid : task.resultId = none) (hid' : task'.resultId = none) :
    TokenInv { s with tasks := s.tasks.set i task' } answers := by
  have hperm := filterMap_perm_of_getElem? TokenTask.resultId htask
  have hset := filterMap_set_perm TokenTask.resultId htask task'
  rw [hid] at hperm
  rw [hid'] at hset
  have hkeep : TokenInv { s with tasks := s.tasks.set i task' } (answers ++ []) := by
    refine h.of_resultIds rfl rfl (fun _ _ hc => hc) (fun uri request resultId data hmem => ?_)
      (by simp) (hset.trans hperm.symm)
    rcases List.mem_or_eq_of_mem_set hmem with hold | rfl
    · exact hold
    · cases hid'
  rwa [List.append_nil] at hkeep

/-- A request is given the next result id. -/
lemma issue (h : TokenInv s answers) {i : Nat} {task : TokenTask} (htask : s.tasks[i]? = some task)
    (hid : task.resultId = none) (uri : Url) (request : TokenRequest) {data : List UInt32}
    (hdata : IsTokenArray data) :
    TokenInv { s.nextSemanticTokensResultId.2 with
      tasks := s.tasks.set i (.answering uri request s.nextSemanticTokensResultId.1 data) }
      answers := by
  have hnext : s.nextSemanticTokensResultId.1 = resultIdAt s.issued := by
    rw [TokenServer.nextSemanticTokensResultId, h.counter, resultIdAt]
  have hperm := filterMap_perm_of_getElem? TokenTask.resultId htask
  have hset := filterMap_set_perm TokenTask.resultId htask
    (.answering uri request s.nextSemanticTokensResultId.1 data)
  rw [hid] at hperm
  have hids : (TokenServer.resultIds { s.nextSemanticTokensResultId.2 with
      tasks := s.tasks.set i (.answering uri request s.nextSemanticTokensResultId.1 data) }
      answers).Perm (resultIdAt s.issued :: s.resultIds answers) := by
    rw [hnext] at hset ⊢
    exact (hset.trans (hperm.symm.cons _)).append_right _
  refine ⟨?_, h.cached, ?_, ?_, ?_⟩
  · have hstep := congrArg (· + 1) h.counter
    exact hstep.trans (UInt64.ofNat_add s.issued 1).symm
  · intro uri' request' resultId' data' hmem
    rcases List.mem_or_eq_of_mem_set hmem with hold | hnew
    · exact h.answering uri' request' resultId' data' hold
    · cases hnew
      exact hdata
  · intro id hmem
    rcases List.mem_cons.mp (hids.mem_iff.mp hmem) with rfl | hold
    · exact ⟨s.issued, Nat.lt_succ_self _, rfl⟩
    · obtain ⟨k, hk, hkid⟩ := h.given id hold
      exact ⟨k, Nat.lt_succ_of_lt hk, hkid⟩
  · intro hle
    have hlt : s.issued < 2 ^ 64 := hle
    refine hids.nodup_iff.mpr (List.nodup_cons.mpr ⟨fun hmem => ?_, h.distinct hlt.le⟩)
    obtain ⟨k, hk, hkid⟩ := h.given _ hmem
    have heq := resultIdAt_injOn hlt (hk.trans hlt) hkid
    omega

/-- The reply to a request is sent, and its array goes into the cache. -/
lemma answer (h : TokenInv s answers) {i : Nat} {uri : Url} {request : TokenRequest}
    {resultId : String} {data : List UInt32}
    (htask : s.tasks[i]? = some (.answering uri request resultId data)) :
    TokenInv { s with
      semanticTokensCache := s.semanticTokensCache.insert uri ⟨resultId, data⟩
      tasks := s.tasks.eraseIdx i }
      (answers ++ [⟨uri, request, s.replyTo uri request resultId data, data⟩]) := by
  have hid : (s.replyTo uri request resultId data).resultId = some resultId := by
    unfold TokenServer.replyTo
    split
    · rfl
    · rfl
    · split
      · split <;> rfl
      · rfl
  have hids : (TokenServer.resultIds { s with
      semanticTokensCache := s.semanticTokensCache.insert uri ⟨resultId, data⟩
      tasks := s.tasks.eraseIdx i }
      (answers ++ [⟨uri, request, s.replyTo uri request resultId data, data⟩])).Perm
      (s.resultIds answers) := by
    have hperm := filterMap_perm_of_getElem? TokenTask.resultId htask
    rw [TokenServer.resultIds, TokenServer.resultIds, List.filterMap_append, ← List.append_assoc]
    refine (List.perm_append_comm).trans ?_
    rw [← List.append_assoc]
    refine List.Perm.append_right _ ?_
    simpa [hid, TokenTask.resultId] using hperm.symm
  refine ⟨h.counter, ?_, ?_, ?_, ?_⟩
  · intro uri' c hc
    rw [sentFor_append]
    by_cases huri : uri = uri'
    · subst huri
      rw [AList.lookup_insert, Option.some.injEq] at hc
      subst hc
      refine ⟨h.answering _ _ _ _ (List.mem_of_getElem? htask), ?_⟩
      rw [@sentFor_of_resultId_eq_some ⟨uri, request, s.replyTo uri request resultId data, data⟩ _
        hid, List.getLast?_concat]
    · rw [AList.lookup_insert_ne (Ne.symm huri)] at hc
      rw [@sentFor_of_ne ⟨uri, request, s.replyTo uri request resultId data, data⟩ _ huri,
        List.append_nil]
      exact h.cached uri' c hc
  · intro uri' request' resultId' data' hmem
    exact h.answering uri' request' resultId' data' (List.mem_of_mem_eraseIdx hmem)
  · intro id hmem
    exact h.given id (hids.mem_iff.mp hmem)
  · intro hle
    exact hids.nodup_iff.mpr (h.distinct hle)

/-- Only the cache of the document itself makes a reply a delta. -/
lemma deltaOk (h : TokenInv s answers) {i : Nat} {uri : Url} {request : TokenRequest}
    {resultId : String} {data : List UInt32}
    (htask : s.tasks[i]? = some (.answering uri request resultId data)) :
    DeltaOk answers ⟨uri, request, s.replyTo uri request resultId data, data⟩ := by
  intro resultId' edits hreply
  have hdata : IsTokenArray data := h.answering _ _ _ _ (List.mem_of_getElem? htask)
  cases request with
  | full => cases hreply
  | range within => cases hreply
  | delta previousResultId =>
    cases hlookup : s.semanticTokensCache.lookup uri with
    | none =>
      simp only [TokenServer.replyTo, hlookup] at hreply
      cases hreply
    | some previous =>
      simp only [TokenServer.replyTo, hlookup] at hreply
      split_ifs at hreply with hnamed
      cases hreply
      obtain ⟨hwhole, hlast⟩ := h.cached uri previous hlookup
      exact ⟨previousResultId, previous.data, rfl, hnamed ▸ hlast, rfl, hwhole, hdata⟩

/-- A task that has just been started may end at once. -/
lemma startTask (h : TokenInv s answers) {i : Nat} {uri : Url} {request : TokenRequest}
    {snapshot : Snapshot} (htask : s.tasks[i]? = some (.loaded uri request snapshot)) :
    TokenInv (s.startTask i uri request snapshot).1
        (answers ++ (s.startTask i uri request snapshot).2) ∧
      AtMostOne (fun answer => answer.reply.IsPlain) (s.startTask i uri request snapshot).2 := by
  have herase {reply : TokenReply} (hreply : reply.IsPlain) :
      TokenInv { s with tasks := s.tasks.eraseIdx i } (answers ++ [⟨uri, request, reply, []⟩]) := by
    refine h.erase htask rfl fun answer hanswer => ?_
    rw [List.mem_singleton.mp hanswer]
    exact hreply.1
  cases hdocument : snapshot.documents.lookup uri with
  | none =>
    simp only [TokenServer.startTask, hdocument]
    exact ⟨herase TokenReply.isPlain_absent, Or.inr ⟨_, rfl, TokenReply.isPlain_absent⟩⟩
  | some document =>
    simp only [TokenServer.startTask, hdocument]
    split_ifs with htarget
    · exact ⟨herase (TokenReply.isPlain_contentModified _),
        Or.inr ⟨_, rfl, TokenReply.isPlain_contentModified _⟩⟩
    · rw [List.append_nil]
      exact ⟨h.set htask rfl rfl, Or.inl rfl⟩

lemma endCollection (h : TokenInv s answers) {i : Nat} {uri : Url} {request : TokenRequest}
    {snapshot : Snapshot} {document : ParsedDocument} {version : Nat} {data : List UInt32}
    (htask : s.tasks[i]? = some (.collecting uri request snapshot document version))
    (hdata : IsTokenArray data) :
    TokenInv (s.endCollection i uri request data).1
        (answers ++ (s.endCollection i uri request data).2) ∧
      AtMostOne (fun answer => answer.reply.IsPlain) (s.endCollection i uri request data).2 := by
  cases request with
  | range within =>
    refine ⟨h.erase htask rfl fun answer hanswer => ?_,
      Or.inr ⟨_, rfl, TokenReply.isPlain_tokens _⟩⟩
    rw [List.mem_singleton.mp hanswer]
    rfl
  | full =>
    rw [TokenServer.endCollection, List.append_nil]
    exact ⟨h.issue htask rfl uri .full hdata, Or.inl rfl⟩
  | delta previousResultId =>
    rw [TokenServer.endCollection, List.append_nil]
    exact ⟨h.issue htask rfl uri (.delta previousResultId) hdata, Or.inl rfl⟩

/-- What one step keeps and sends. -/
lemma advance (h : TokenInv s answers) {collection : TokenCollection} {e : TokenServer.Event}
    {s' : TokenServer} {sent : List TokenAnswer} (hs : s.advance collection e = some (s', sent)) :
    TokenInv s' (answers ++ sent) ∧ AtMostOne (DeltaOk answers) sent := by
  have hplain {r : TokenServer × List TokenAnswer} (hr : TokenInv r.1 (answers ++ r.2) ∧
      AtMostOne (fun answer => answer.reply.IsPlain) r.2) (heq : r = (s', sent)) :
      TokenInv s' (answers ++ sent) ∧ AtMostOne (DeltaOk answers) sent := by
    cases heq
    exact ⟨hr.1, hr.2.imp id fun ⟨answer, hanswer, hreply⟩ => ⟨answer, hanswer, hreply.deltaOk _⟩⟩
  cases e with
  | publish snapshot | enqueue pendingTargets | raiseVersion =>
    cases hs
    exact ⟨h.of_resultIds rfl rfl (fun _ _ hc => hc) (fun _ _ _ _ hmem => hmem) (by simp)
      (List.Perm.refl _), Or.inl rfl⟩
  | forget uri =>
    cases hs
    refine ⟨h.of_resultIds rfl rfl (fun uri' c hc => ?_) (fun _ _ _ _ hmem => hmem) (by simp)
      (List.Perm.refl _), Or.inl rfl⟩
    by_cases huri : uri' = uri
    · subst huri
      rw [AList.lookup_erase] at hc
      cases hc
    · rwa [AList.lookup_erase_ne huri] at hc
  | request uri request =>
    cases hs
    refine ⟨h.of_resultIds rfl rfl (fun _ _ hc => hc) (fun _ _ _ _ hmem => ?_) (by simp) ?_,
      Or.inl rfl⟩
    · simpa using hmem
    · have hnew : [TokenTask.loaded uri request s.snapshot].filterMap TokenTask.resultId = [] := rfl
      rw [List.filterMap_append, hnew, List.append_nil]
  | start i =>
    cases htask : s.tasks[i]? with
    | none => simp [TokenServer.advance, htask] at hs
    | some task =>
      cases task with
      | loaded uri request snapshot =>
        simp only [TokenServer.advance, htask, Option.some.injEq] at hs
        exact hplain (h.startTask htask) hs
      | _ => simp [TokenServer.advance, htask] at hs
  | collect i stops =>
    cases htask : s.tasks[i]? with
    | none => simp [TokenServer.advance, htask] at hs
    | some task =>
      cases task with
      | collecting uri request snapshot document version =>
        simp only [TokenServer.advance, htask] at hs
        split_ifs at hs with hstops hversion
        · refine hplain ⟨h.erase htask rfl fun answer hanswer => ?_, Or.inr ⟨_, rfl,
            TokenReply.isPlain_contentModified _⟩⟩ (Option.some.inj hs)
          rw [List.mem_singleton.mp hanswer]
          rfl
        · exact hplain (h.endCollection htask (collection.whole _ _ _ _)) (Option.some.inj hs)
      | _ => simp [TokenServer.advance, htask] at hs
  | answer i =>
    cases htask : s.tasks[i]? with
    | none => simp [TokenServer.advance, htask] at hs
    | some task =>
      cases task with
      | answering uri request resultId data =>
        simp only [TokenServer.advance, htask, Option.some.injEq] at hs
        cases hs
        exact ⟨h.answer htask, Or.inr ⟨_, rfl, h.deltaOk htask⟩⟩
      | _ => simp [TokenServer.advance, htask] at hs

end TokenInv

section Runs

variable (collection : TokenCollection)

lemma tokenInv_empty : TokenInv {} [] where
  counter := rfl
  cached _ _ hc := by cases hc
  answering _ _ _ _ hmem := by cases hmem
  given _ hid := by cases hid
  distinct _ := List.nodup_nil

/-- Every answer of the list is as it should be behind those in front of it. -/
def AllAnswers (P : List TokenAnswer → TokenAnswer → Prop) (answers : List TokenAnswer) : Prop :=
  ∀ before answer after, answers = before ++ answer :: after → P before answer

lemma AllAnswers.append {P : List TokenAnswer → TokenAnswer → Prop} {answers : List TokenAnswer}
    (h : AllAnswers P answers) {sent : List TokenAnswer} (hsent : AtMostOne (P answers) sent) :
    AllAnswers P (answers ++ sent) := by
  obtain rfl | ⟨answer, rfl, hanswer⟩ := hsent
  · rwa [List.append_nil]
  · intro before answer' after hsplit
    cases after using List.reverseRecOn with
    | nil =>
      obtain ⟨rfl, hlast⟩ := List.append_inj' hsplit rfl
      cases hlast
      exact hanswer
    | append_singleton after last =>
      rw [← List.cons_append, ← List.append_assoc] at hsplit
      exact h before answer' after (List.append_inj' hsplit rfl).1

/-- Along a run the cache holds what was sent last, and deltas are computed against it. -/
lemma run_tokenInv {es : List TokenServer.Event} {s : TokenServer}
    (hrun : run (TokenServer.step collection) {} es = some s) :
    TokenInv s (recordedBy (TokenServer.step collection) (TokenServer.sends collection) {} es) ∧
      AllAnswers DeltaOk
        (recordedBy (TokenServer.step collection) (TokenServer.sends collection) {} es) := by
  have hall : AllSteps (TokenServer.step collection) (fun _ _ => True) {} es :=
    allSteps_of_forall (fun _ _ => trivial) _ _
  refine run_invariant_recorded (I := fun s answers => TokenInv s answers ∧ AllAnswers DeltaOk answers)
    (fun s e s' answers hI _ hs => ?_) ⟨tokenInv_empty, fun _ _ _ h => by simp at h⟩ hall hrun
  obtain ⟨⟨next, sent⟩, hadvance, rfl⟩ := Option.map_eq_some_iff.mp hs
  obtain ⟨hinv, hsent⟩ := hI.1.advance hadvance
  have hsends : TokenServer.sends collection s e = sent := by
    rw [TokenServer.sends, hadvance]
    rfl
  rw [hsends]
  exact ⟨hinv, hI.2.append hsent⟩

/-- Under one id a document was sent one array, unless the ids have come round. -/
lemma TokenInv.sentFor_unique {s : TokenServer} {answers : List TokenAnswer} (h : TokenInv s answers)
    (hissued : s.issued ≤ 2 ^ 64) {uri : Url} {resultId : String} {array array' : List UInt32}
    (harray : (resultId, array) ∈ sentFor uri answers)
    (harray' : (resultId, array') ∈ sentFor uri answers) : array' = array := by
  have hkeys : ((sentFor uri answers).map Prod.fst).Nodup := by
    have hsub : ((sentFor uri answers).map Prod.fst).Sublist
        (answers.filterMap fun a => a.reply.resultId) := by
      rw [sentFor, List.map_filterMap]
      simp only [Option.map_map, Function.comp_def, Option.map_id']
      exact List.filter_sublist.filterMap _
    exact hsub.nodup ((List.nodup_append.mp (h.distinct hissued)).2.1)
  have hpair := List.inj_on_of_nodup_map hkeys harray' harray rfl
  exact (Prod.mk.inj hpair).2

/-- Edits lead from the previous array to the current one unless their offsets are too large for
the wire. In every run, a delta is computed against the array that was sent last for the document,
which was sent under the id that the client names, and under no other array's id unless the ids
have come round. -/
theorem token_deltas_round_trip :
    (∀ previous current, IsTokenArray previous → IsTokenArray current →
      FitsWire previous current →
        applyEdits previous (semanticTokenEdits previous current) = current) ∧
    ∀ es s, run (TokenServer.step collection) {} es = some s →
      ∀ before answer after,
        recordedBy (TokenServer.step collection) (TokenServer.sends collection) {} es =
          before ++ answer :: after →
        ∀ resultId edits, answer.reply = .tokensDelta resultId edits →
          ∃ previousResultId previous, answer.request = .delta previousResultId ∧
            (sentFor answer.uri before).getLast? = some (previousResultId, previous) ∧
            edits = semanticTokenEdits previous answer.array ∧
            (FitsWire previous answer.array → applyEdits previous edits = answer.array) ∧
            (s.issued ≤ 2 ^ 64 → ∀ array,
              (previousResultId, array) ∈ sentFor answer.uri before → array = previous) := by
  refine ⟨fun previous current hprevious hcurrent hfits =>
    applyEdits_semanticTokenEdits hprevious hcurrent hfits, ?_⟩
  intro es s hrun before answer after hsplit resultId edits hreply
  obtain ⟨hinv, hall⟩ := run_tokenInv collection hrun
  obtain ⟨previousResultId, previous, hrequest, hlast, hedits, hprevious, hcurrent⟩ :=
    hall before answer after hsplit resultId edits hreply
  refine ⟨previousResultId, previous, hrequest, hlast, hedits, fun hfits => ?_,
    fun hissued array harray => ?_⟩
  · rw [hedits]
    exact applyEdits_semanticTokenEdits hprevious hcurrent hfits
  · have hbefore {entry : String × List UInt32} (hentry : entry ∈ sentFor answer.uri before) :
        entry ∈ sentFor answer.uri (recordedBy (TokenServer.step collection)
          (TokenServer.sends collection) {} es) := by
      rw [hsplit, sentFor_append]
      exact List.mem_append_left _ hentry
    exact hinv.sentFor_unique hissued (hbefore (List.mem_of_getLast? hlast)) (hbefore harray)

end Runs

/-- One token, as long as the source of the document. -/
def sourceLengths : TokenCollection where
  collect _ _ document _ := [0, 0, UInt32.ofNat document.source.length, 0, 0]
  whole _ _ _ _ := ⟨1, rfl⟩

def withSource (source : String) : Snapshot where
  documents := (∅ : AList fun _ : Url => ParsedDocument).insert "file:///a.ws"
    { source, symbols := [] }

/-- A full request, an edit and a delta request. -/
def editedBetween : List TokenServer.Event :=
  [.publish (withSource "class"), .request "file:///a.ws" .full, .start 0, .collect 0 false,
    .answer 0, .publish (withSource "function"), .raiseVersion,
    .request "file:///a.ws" (.delta "0"), .start 0, .collect 0 false, .answer 0]

theorem token_deltas_round_trip_editedBetween :
    applyEdits [0, 0, 5, 0, 0, 1, 0, 3, 1, 0]
        (semanticTokenEdits [0, 0, 5, 0, 0, 1, 0, 3, 1, 0] [0, 0, 5, 0, 0]) = [0, 0, 5, 0, 0] ∧
      ∃ previous, (sentFor "file:///a.ws" [⟨"file:///a.ws", .full,
          .tokens (some "0") [⟨0, 0, 5, 0, 0⟩], [0, 0, 5, 0, 0]⟩]).getLast? =
          some ("0", previous) ∧
        [⟨0, 5, some [⟨0, 0, 8, 0, 0⟩]⟩] = semanticTokenEdits previous [0, 0, 8, 0, 0] := by
  refine ⟨(token_deltas_round_trip sourceLengths).1 _ _ (by decide) (by decide) (by decide), ?_⟩
  obtain ⟨previousResultId, previous, hrequest, hlast, hedits, -, -⟩ :=
    (token_deltas_round_trip sourceLengths).2 editedBetween _ rfl
      [⟨"file:///a.ws", .full, .tokens (some "0") [⟨0, 0, 5, 0, 0⟩], [0, 0, 5, 0, 0]⟩]
      ⟨"file:///a.ws", .delta "0",
        .tokensDelta (some "1") [⟨0, 5, some [⟨0, 0, 8, 0, 0⟩]⟩], [0, 0, 8, 0, 0]⟩
      [] (by rfl) (some "1") _ rfl
  cases hrequest
  exact ⟨previous, hlast, hedits⟩

/-- The integers of all but the last token are more than an offset of the wire can count. -/
theorem not_applyEdits_zeroTokens :
    IsTokenArray (zeroTokens 858993460) ∧
      IsTokenArray (zeroTokens 858993460 ++ [1, 0, 0, 0, 0]) ∧
      applyEdits (zeroTokens 858993460) (semanticTokenEdits (zeroTokens 858993460)
          (zeroTokens 858993460 ++ [1, 0, 0, 0, 0])) ≠
        zeroTokens 858993460 ++ [1, 0, 0, 0, 0] :=
  ⟨isTokenArray_wireData _, (isTokenArray_wireData _).append (by decide),
    applyEdits_append_ne (by decide)⟩

end WitcherScriptLanguage
