import Mathlib.Data.List.Induction
import Lexis.Token

/-!
# A stream is a stack that an end token closes

A push looks at the last token only, but a pop uncovers an earlier one. That nothing ever stands
behind an end token is a matter of all calls together: what they keep is `EofLast`, and a call that
fails keeps it because it returns the stream that it was given.

* `push_of_closed`, `push_of_open`: what a push does, by the last token.
* `pop_eq_some_iff`: a pop takes off what a push has put on.
* `ofTokens_eq_ok_iff`: the lists that make a stream at once are those a stream may hold.
* `eofLast_call`, `eofLast_run`: what one call keeps holds after every run.
* `getElem?_visited`: which tokens a visit gets to.
* `count_significant`: what is left when trivia are left out.
-/
namespace Lexis

/-- No token but possibly the last is an end token. -/
def EofLast (ts : List Token) : Prop := ∀ t ∈ ts.dropLast, t.kind ≠ .eof

theorem eofLast_nil : EofLast [] := by simp [EofLast]

theorem eofLast_concat {ts : List Token} {t : Token} :
    EofLast (ts ++ [t]) ↔ ∀ u ∈ ts, u.kind ≠ .eof := by
  simp [EofLast]

theorem EofLast.dropLast {ts : List Token} (h : EofLast ts) : EofLast ts.dropLast :=
  fun t ht => h t (List.dropLast_subset _ ht)

theorem EofLast.countP_le_one {ts : List Token} (h : EofLast ts) :
    ts.countP Token.isEof ≤ 1 := by
  rcases List.eq_nil_or_concat ts with rfl | ⟨init, t, rfl⟩
  · simp
  · rw [List.concat_eq_append, eofLast_concat] at h
    have hinit : init.countP Token.isEof = 0 := by
      simpa [List.countP_eq_zero, Token.isEof] using h
    have hlast := List.countP_le_length (p := Token.isEof) (l := [t])
    simp only [List.concat_eq_append, List.countP_append, List.length_singleton] at hlast ⊢
    omega

theorem Kind.isTrivia_iff {k : Kind} :
    k.isTrivia ↔ k = .whitespace ∨ k = .lineComment ∨ k = .blockComment := by
  cases k <;> simp [Kind.isTrivia]

namespace Stream

variable {s s' : Stream} {t : Token}

/-! ## Pushing and popping -/

/-- The last token is an end token. -/
def Closed (s : Stream) : Prop := ∃ init t, s.tokens = init ++ [t] ∧ t.kind = .eof

theorem any_getLast?_iff : s.tokens.getLast?.any Token.isEof = true ↔ s.Closed := by
  rcases List.eq_nil_or_concat s.tokens with hs | ⟨init, t, hs⟩
  · simp [Closed, hs]
  · simp [Closed, hs, Token.isEof]

theorem push_of_closed (h : s.Closed) (t : Token) : s.push t = (s, some ⟨t⟩) := by
  rw [push, if_pos (any_getLast?_iff.2 h)]

theorem push_of_open (h : ¬ s.Closed) (t : Token) : s.push t = (⟨s.tokens ++ [t]⟩, none) := by
  rw [push, if_neg (any_getLast?_iff.not.2 h)]

theorem push_eq_error_iff {e : PushError} :
    s.push t = (s', some e) ↔ s.Closed ∧ s' = s ∧ e = ⟨t⟩ := by
  by_cases h : s.Closed
  · simp [push_of_closed h, h, eq_comm]
  · simp [push_of_open h, h]

theorem push_eq_ok_iff :
    s.push t = (s', none) ↔ ¬ s.Closed ∧ s'.tokens = s.tokens ++ [t] := by
  by_cases h : s.Closed
  · simp [push_of_closed h, h]
  · obtain ⟨ts⟩ := s'
    simp [push_of_open h, h, eq_comm]

theorem pop_eq_none_iff : s.pop = (none, s') ↔ s.tokens = [] ∧ s' = s := by
  rcases List.eq_nil_or_concat s.tokens with hs | ⟨init, u, hs⟩
  · simp [pop, hs, eq_comm]
  · simp [pop, hs]

theorem pop_eq_some_iff : s.pop = (some t, s') ↔ s.tokens = s'.tokens ++ [t] := by
  obtain ⟨ts⟩ := s'
  rcases List.eq_nil_or_concat s.tokens with hs | ⟨init, u, hs⟩
  · simp [pop, hs]
  · simp [pop, hs, and_comm]

/-! ## Calls -/

/-- What can be done with a stream: to make a new one in its place, to push and to pop. -/
inductive Call where
  | new (tokens : List Token)
  | push (t : Token)
  | pop
  deriving DecidableEq, Repr

/-- The stream behind a call. Where no new one can be made, the old one stays. -/
def call (s : Stream) : Call → Stream
  | .new ts => (ofTokens ts).toOption.getD s
  | .push t => (s.push t).1
  | .pop => s.pop.2

def run (s : Stream) (ks : List Call) : Stream := ks.foldl call s

/-- An open stream in which an end token could only be the last has none. -/
theorem kind_ne_eof_of_open (hs : EofLast s.tokens) (hopen : ¬ s.Closed) :
    ∀ u ∈ s.tokens, u.kind ≠ .eof := by
  intro u hu
  rcases List.eq_nil_or_concat s.tokens with hnil | ⟨init, t, hinit⟩
  · simp [hnil] at hu
  · rw [List.concat_eq_append] at hinit
    rw [hinit, List.mem_append, List.mem_singleton] at hu
    rw [hinit, eofLast_concat] at hs
    rcases hu with hu | rfl
    · exact hs u hu
    · exact fun heof => hopen ⟨init, u, hinit, heof⟩

theorem eofLast_push (hs : EofLast s.tokens) (t : Token) : EofLast (s.push t).1.tokens := by
  by_cases h : s.Closed
  · rw [push_of_closed h]
    exact hs
  · rw [push_of_open h, eofLast_concat]
    exact kind_ne_eof_of_open hs h

theorem eofLast_pop (hs : EofLast s.tokens) : EofLast s.pop.2.tokens := by
  unfold pop
  split
  · exact hs.dropLast
  · exact hs

theorem tryPush_eq_ok_iff : s.tryPush t = .ok s' ↔ s.push t = (s', none) := by
  unfold tryPush
  split
  · next hs => simp [hs]
  · next hs => simp [hs]

theorem ofTokens_concat (ts : List Token) (t : Token) :
    ofTokens (ts ++ [t]) = ofTokens ts >>= fun s => s.tryPush t := by
  simp [ofTokens, List.foldlM_append]

/-- A list makes a stream iff a stream may hold it, and then the stream holds it. -/
theorem ofTokens_eq_ok_iff {ts : List Token} :
    ofTokens ts = .ok s ↔ EofLast ts ∧ s.tokens = ts := by
  induction ts using List.reverseRecOn generalizing s with
  | nil =>
    obtain ⟨us⟩ := s
    simp [ofTokens, empty, eofLast_nil, pure, Except.pure, eq_comm]
  | append_singleton ts t ih =>
    rw [ofTokens_concat]
    constructor
    · intro h
      cases hinit : ofTokens ts with
      | error e => simp [hinit, bind, Except.bind] at h
      | ok r =>
        rw [hinit] at h
        obtain ⟨hlast, rfl⟩ := ih.1 hinit
        have hpush := tryPush_eq_ok_iff.1 h
        have hkept := eofLast_push hlast t
        rw [hpush] at hkept
        rw [← (push_eq_ok_iff.1 hpush).2]
        exact ⟨hkept, rfl⟩
    · rintro ⟨hlast, htokens⟩
      have hnone := eofLast_concat.1 hlast
      have hinit : ofTokens ts = .ok ⟨ts⟩ :=
        ih.2 ⟨fun u hu => hnone u (List.dropLast_subset _ hu), rfl⟩
      -- The stream made so far has no end token, so it is open.
      have hopen : ¬ Closed ⟨ts⟩ := by
        rintro ⟨init, u, hu, heof⟩
        exact hnone u (by simp [show ts = init ++ [u] from hu]) heof
      rw [hinit]
      exact tryPush_eq_ok_iff.2 (push_eq_ok_iff.2 ⟨hopen, htokens⟩)

/-- Every call keeps it that an end token is the last one. -/
theorem eofLast_call (hs : EofLast s.tokens) (k : Call) : EofLast (s.call k).tokens := by
  cases k with
  | new ts =>
    cases h : ofTokens ts with
    | error e => simpa [call, h, Except.toOption] using hs
    | ok r =>
      obtain ⟨hlast, rfl⟩ := ofTokens_eq_ok_iff.1 h
      simpa [call, h, Except.toOption] using hlast
  | push t => exact eofLast_push hs t
  | pop => exact eofLast_pop hs

theorem eofLast_run (hs : EofLast s.tokens) (ks : List Call) : EofLast (s.run ks).tokens := by
  induction ks generalizing s with
  | nil => exact hs
  | cons k ks ih => exact ih (eofLast_call hs k)

/-! ## Visiting and leaving out -/

theorem get_eq_ok_iff {i : Nat} : s.get i = .ok t ↔ s.tokens[i]? = some t := by
  have hi : ¬ (i : Int) < 0 := by omega
  simp only [get, hi, if_false, Int.toNat_natCast]
  cases s.tokens[i]? <;> simp

/-- A visit that starts at index `i` comes to the `k`-th token from there iff it was not told to
stop at any token before. -/
theorem getElem?_visitedFrom (visit : Nat → Token → Bool) (i k : Nat) (ts : List Token)
    (p : Nat × Token) :
    (visitedFrom visit i ts)[k]? = some p ↔
      p.1 = i + k ∧ ts[k]? = some p.2 ∧ ∀ j < k, ∀ u, ts[j]? = some u → visit (i + j) u := by
  induction ts generalizing i k with
  | nil => simp [visitedFrom]
  | cons t ts ih =>
    obtain ⟨n, u⟩ := p
    cases k with
    | zero => simp [visitedFrom, eq_comm (a := i)]
    | succ k =>
      rw [visitedFrom, List.getElem?_cons_succ, List.getElem?_cons_succ]
      by_cases hv : visit i t
      · rw [if_pos hv, ih]
        simp only [Nat.forall_lt_succ_left]
        simp [hv, Nat.add_assoc, Nat.add_comm 1]
      · rw [if_neg hv]
        simp only [Nat.forall_lt_succ_left]
        simp [hv]

/-- The tokens that a visit gets to are those of the stream, in order, through the first at which it
is told to stop. -/
theorem getElem?_visited (visit : Nat → Token → Bool) (i : Nat) (p : Nat × Token) :
    (s.visited visit)[i]? = some p ↔
      p.1 = i ∧ s.get i = .ok p.2 ∧ ∀ j < i, ∀ u, s.get j = .ok u → visit j u := by
  simp [visited, getElem?_visitedFrom, get_eq_ok_iff]

theorem significant_sublist (s : Stream) : s.significant.Sublist s.tokens := List.filter_sublist

theorem count_significant (s : Stream) (t : Token) :
    s.significant.count t = if t.kind.isTrivia then 0 else s.tokens.count t := by
  unfold significant
  split
  · next h => simp [List.count_eq_zero, h]
  · next h => exact List.count_filter (by simpa using h)

/-- A stream is a stack, however it was reached: it holds an end token at most as the last one, and
only such a token keeps others from being pushed. A call that fails leaves it as it was. -/
theorem run_stack (calls : List Call) :
    let s := empty.run calls
    (EofLast s.tokens ∧ s.tokens.countP Token.isEof ≤ 1) ∧
      (∀ t, ((∃ e, (s.push t).2 = some e) ↔ s.Closed) ∧
        (∀ s' e, s.push t = (s', some e) → s' = s ∧ s.call (.push t) = s) ∧
        ∀ s', s.push t = (s', none) →
          s.call (.push t) = s' ∧ s'.tokens = s.tokens ++ [t] ∧ s'.pop = (some t, s)) ∧
      (∀ s', s.pop = (none, s') ↔ s.tokens = [] ∧ s' = s) ∧
      (∀ t s', s.pop = (some t, s') ↔ s.tokens = s'.tokens ++ [t]) ∧
      (∀ ts, ((∃ s', ofTokens ts = .ok s') ↔ EofLast ts) ∧
        ∀ s', ofTokens ts = .ok s' → s'.tokens = ts) ∧
      (∀ (visit : Nat → Token → Bool) (i : Nat) (p : Nat × Token),
        (s.visited visit)[i]? = some p ↔
          p.1 = i ∧ s.get i = .ok p.2 ∧ ∀ j < i, ∀ u, s.get j = .ok u → visit j u) ∧
      s.significant.Sublist s.tokens ∧
      ∀ t, s.significant.count t =
        if t.kind = .whitespace ∨ t.kind = .lineComment ∨ t.kind = .blockComment then 0
        else s.tokens.count t := by
  intro s
  have hlast : EofLast s.tokens := eofLast_run eofLast_nil calls
  refine ⟨⟨hlast, hlast.countP_le_one⟩, fun t => ⟨?_, ?_, ?_⟩, fun s' => pop_eq_none_iff,
    fun t s' => pop_eq_some_iff, fun ts => ⟨?_, ?_⟩,
    fun visit i p => getElem?_visited visit i p, significant_sublist s, fun t => ?_⟩
  · by_cases h : s.Closed
    · simp [push_of_closed h, h]
    · simp [push_of_open h, h]
  · intro s' e h
    obtain ⟨-, rfl, -⟩ := push_eq_error_iff.1 h
    exact ⟨rfl, by rw [call, h]⟩
  · intro s' h
    obtain ⟨-, htokens⟩ := push_eq_ok_iff.1 h
    exact ⟨by rw [call, h], htokens, pop_eq_some_iff.2 htokens⟩
  · simp only [ofTokens_eq_ok_iff, exists_and_left, and_iff_left_iff_imp]
    exact fun _ => ⟨⟨ts⟩, rfl⟩
  · exact fun s' h => (ofTokens_eq_ok_iff.1 h).2
  · simp [count_significant, Kind.isTrivia_iff]

/-- A push behind an end token and a stream with such a token inside both fail; a pop makes room
again. -/
theorem run_stack_reopened :
    let a : Token := ⟨.ident, .empty, .raw (ascii "a"), ⟨0, 1⟩⟩
    let blank : Token := ⟨.whitespace, .empty, .raw (ascii " "), ⟨1, 2⟩⟩
    let eof : Token := ⟨.eof, .empty, .absent, ⟨2, 2⟩⟩
    let calls : List Call := [.new [a, eof], .push a, .new [eof, a], .pop, .push blank]
    let closing : List Call := calls ++ [.push eof]
    let s := empty.run calls
    let s' := empty.run closing
    s.tokens = [a, blank] ∧ s.push eof = (s', none) ∧ s'.pop = (some eof, s) ∧
      s'.push a = (s', some ⟨a⟩) ∧ s'.call (.push a) = s' ∧
      (s'.visited fun _ t => t ≠ blank) = [(0, a), (1, blank)] ∧ s'.significant = [a, eof] := by
  intro a blank eof calls closing s s'
  have hpush : s.push eof = (s', none) := by decide
  have hfail : s'.push a = (s', some ⟨a⟩) := by decide
  obtain ⟨-, -, hpop⟩ := ((run_stack calls).2.1 eof).2.2 s' hpush
  obtain ⟨-, hkeep⟩ := ((run_stack closing).2.1 a).2.1 s' _ hfail
  exact ⟨by decide, hpush, hpop, hfail, hkeep, by decide, by decide⟩

end Stream
end Lexis
