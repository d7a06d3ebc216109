import Lexis.Proofs.Scan.Runs

/-!
# Token by token or all at once

A scanner can be asked for the next token or for all that are left, in any order and as often as
one likes. Between two calls it stands somewhere in the one run of its source, or behind it
(`Stands`): what it has returned and reported belongs to the steps before, what it will return to
the steps after.

* `Stands.call`, `Stands.run`: calls move the scanner along the run.
* `run_at_end`: at the end of the text no call changes anything.
-/
namespace Lexis
namespace Scanner

open Cursor

/-! ## Calls -/

/-- The two ways to ask for tokens. -/
inductive Call where
  | next
  | drain
  deriving DecidableEq, Repr

/-- The tokens that a call returns, and the scanner behind it. -/
def call (s : Scanner) : Call → List Token × Scanner
  | .next => ([s.next.1], s.next.2)
  | .drain => s.drain

/-- The tokens that calls return one after the other, and the scanner behind them. -/
def run (s : Scanner) : List Call → List Token × Scanner
  | [] => ([], s)
  | k :: ks => ((s.call k).1 ++ ((s.call k).2.run ks).1, ((s.call k).2.run ks).2)

theorem diagnostics_prefix_call (s : Scanner) (k : Call) :
    s.diagnostics <+: (s.call k).2.diagnostics := by
  cases k with
  | next => exact List.prefix_append _ _
  | drain => exact List.prefix_append _ _

/-- Reports are never taken back. -/
theorem diagnostics_prefix_run (s : Scanner) (ks : List Call) :
    s.diagnostics <+: (s.run ks).2.diagnostics := by
  induction ks generalizing s with
  | nil => exact List.prefix_refl _
  | cons k ks ih => exact (s.diagnostics_prefix_call k).trans (ih (s.call k).2)

theorem call_next {s : Scanner} {p : Step} {ss : List Step}
    (h : s.cursor.steps s.options = p :: ss) :
    s.call .next =
      ([p.token], { s with cursor := p.stop, diagnostics := s.diagnostics ++ p.diagnostics }) := by
  rw [call, Scanner.next, step_of_steps h]

theorem call_drain {s : Scanner} {body : List Step} {e : Cursor}
    (h : s.cursor.steps s.options = body ++ [.atEof e]) :
    s.call .drain =
      (body.map (·.token) ++ [(Step.atEof e).token],
        { s with cursor := e, diagnostics := s.diagnostics ++ body.flatMap (·.diagnostics) }) := by
  rw [call, drain, h, flatMap_diagnostics_body]
  simp [Step.atEof]

theorem call_at_end {s : Scanner} (h : s.cursor.rest = []) (k : Call) :
    s.call k = ([(Step.atEof s.cursor).token], s) := by
  have hsteps := steps_of_eof (skips_end s.options h) h
  cases k with
  | next =>
    rw [call_next hsteps]
    simp [Step.atEof]
  | drain =>
    rw [← List.nil_append [Step.atEof s.cursor]] at hsteps
    rw [call_drain hsteps]
    simp

/-- At the end of the text no call changes anything. -/
theorem run_at_end {s : Scanner} (h : s.cursor.rest = []) (ks : List Call) : (s.run ks).2 = s := by
  induction ks with
  | nil => rfl
  | cons k ks ih =>
    rw [run, call_at_end h]
    exact ih

/-! ## Where a scanner stands -/

/-- Of the run `body` and its end at `e`, the scanner has returned the tokens `done`: those of a
part of the lexemes, or those of all and the end one or more times. -/
inductive Stands (body : List Step) (e : Cursor) (done : List Token) (s : Scanner) : Prop where
  | within (pre post : List Step) : body = pre ++ post →
      s.cursor.steps s.options = post ++ [.atEof e] → done = pre.map (·.token) →
      s.diagnostics = pre.flatMap (·.diagnostics) → Stands body e done s
  | ended (n : Nat) : s.cursor = e →
      done = body.map (·.token) ++ List.replicate (n + 1) (Step.atEof e).token →
      s.diagnostics = body.flatMap (·.diagnostics) → Stands body e done s

variable {body : List Step} {e : Cursor} {done : List Token} {s : Scanner}

/-- A call moves the scanner along the run: by one token, or to its end. -/
theorem Stands.call (he : e.rest = []) (hbody : ∀ s ∈ body, s.token.kind ≠ .eof)
    (h : Stands body e done s) (k : Call) : Stands body e (done ++ (s.call k).1) (s.call k).2 := by
  cases h with
  | within pre post hsplit hsteps hdone hdiagnostics =>
    cases k with
    | next =>
      cases post with
      | nil =>
        rw [call_next hsteps]
        refine .ended 0 rfl ?_ ?_
        · simp [hdone, hsplit]
        · simp [hdiagnostics, hsplit, Step.atEof]
      | cons p post =>
        rw [List.cons_append] at hsteps
        rw [call_next hsteps]
        refine .within (pre ++ [p]) post ?_ ?_ ?_ ?_
        · simp [hsplit]
        · exact (steps_behind hsteps (hbody p (by simp [hsplit]))).symm
        · simp [hdone]
        · simp [hdiagnostics]
    | drain =>
      rw [call_drain hsteps]
      refine .ended 0 rfl ?_ ?_
      · simp [hdone, hsplit]
      · simp [hdiagnostics, hsplit]
  | ended n hcursor hdone hdiagnostics =>
    rw [call_at_end (by rw [hcursor, he])]
    refine .ended (n + 1) hcursor ?_ hdiagnostics
    rw [hdone, hcursor, List.append_assoc, ← List.replicate_succ']

theorem Stands.run (he : e.rest = []) (hbody : ∀ s ∈ body, s.token.kind ≠ .eof)
    (h : Stands body e done s) (ks : List Call) :
    Stands body e (done ++ (s.run ks).1) (s.run ks).2 := by
  induction ks generalizing done s with
  | nil => simpa [Scanner.run] using h
  | cons k ks ih =>
    rw [Scanner.run, ← List.append_assoc]
    exact ih (h.call he hbody k)

/-! ## What follows from it -/

theorem Stands.tokens_isPrefix (h : Stands body e done s) :
    done <+: body.map (·.token) ++ List.replicate done.length (Step.atEof e).token := by
  cases h with
  | within pre post hsplit hsteps hdone hdiagnostics =>
    rw [hdone, hsplit, List.map_append, List.append_assoc]
    exact List.prefix_append _ _
  | ended n hcursor hdone hdiagnostics =>
    have hlen : done.length = (n + 1) + body.length := by
      simp [hdone]
      omega
    rw [hlen, List.replicate_add, ← List.append_assoc, ← hdone]
    exact List.prefix_append _ _

theorem Stands.tokens_drain (he : e.rest = []) (h : Stands body e done s) :
    (s.call .drain).1 = (body.map (·.token)).drop done.length ++ [(Step.atEof e).token] := by
  cases h with
  | within pre post hsplit hsteps hdone hdiagnostics =>
    rw [call_drain hsteps]
    simp [hdone, hsplit]
  | ended n hcursor hdone hdiagnostics =>
    rw [call_at_end (by rw [hcursor, he]), hcursor]
    simp [hdone]

/-- Reported is what belongs to the tokens returned, which are known by their spans. -/
theorem Stands.diagnostics_eq {c : Cursor} {o : Options} (hss : c.steps o = body ++ [.atEof e])
    (h : Stands body e done s) :
    s.diagnostics <+: (c.steps o).flatMap (·.diagnostics) ∧
      s.diagnostics = ((c.steps o).flatMap (·.diagnostics)).filter
        fun g => done.any (·.span = g.span) := by
  -- The diagnostics of steps whose tokens were returned pass the test.
  have hkept : ∀ pre : List Step, (∀ p ∈ pre, p.token ∈ done ∧ p.Placed) →
      (pre.flatMap (·.diagnostics)).filter (fun g => done.any (·.span = g.span)) =
        pre.flatMap (·.diagnostics) := by
    intro pre hpre
    refine filter_diagnostics_eq_self fun p hp g hg => ?_
    obtain ⟨hmem, hplaced⟩ := hpre p hp
    rw [List.any_eq_true]
    exact ⟨p.token, hmem, decide_eq_true (hplaced.span_eq g hg).symm⟩
  cases h with
  | within pre post hsplit hsteps hdone hdiagnostics =>
    have hcut : c.steps o = pre ++ (post ++ [.atEof e]) := by rw [hss, hsplit, List.append_assoc]
    rw [hcut, hdiagnostics, List.flatMap_append, List.filter_append, hkept pre,
      filter_diagnostics_eq_nil, List.append_nil]
    · exact ⟨List.prefix_append _ _, rfl⟩
    · intro p hp g hg
      rw [List.any_eq_false]
      intro t ht
      rw [hdone] at ht
      obtain ⟨q, hq, rfl⟩ := List.mem_map.1 ht
      have hne := (apart_of_split hcut hq hp).2 g hg
      simp [Ne.symm hne]
    · intro p hp
      exact ⟨by simpa [hdone] using ⟨p, hp, rfl⟩, (placed_of_split hcut).1 p hp⟩
  | ended n hcursor hdone hdiagnostics =>
    rw [hss, flatMap_diagnostics_body, hdiagnostics, hkept body]
    · exact ⟨List.prefix_refl _, rfl⟩
    · intro p hp
      refine ⟨?_, (placed_of_split hss).1 p hp⟩
      rw [hdone]
      exact List.mem_append_left _ (List.mem_map_of_mem hp)

/-- Once the end was returned, the scanner stands there. -/
theorem Stands.rest_eq_nil (he : e.rest = []) (hbody : ∀ s ∈ body, s.token.kind ≠ .eof)
    (h : Stands body e done s) (heof : done.any (·.isEof)) : s.cursor.rest = [] := by
  cases h with
  | within pre post hsplit hsteps hdone hdiagnostics =>
    obtain ⟨t, ht, hk⟩ := List.any_eq_true.1 heof
    rw [hdone] at ht
    obtain ⟨p, hp, rfl⟩ := List.mem_map.1 ht
    exact absurd (of_decide_eq_true hk) (hbody p (by simp [hsplit, hp]))
  | ended n hcursor => rw [hcursor, he]

/-- Asking token by token and asking for all tokens agree, in any mixture. -/
theorem run_agrees (source : Bytes) (o : Options) (calls more : List Call) :
    let r := (start source o).run calls
    let lexemes := (tokenize source o).1.filter (!·.isEof)
    let eof : Token := ⟨.eof, .empty, .absent, ⟨source.length, source.length⟩⟩
    r.1 <+: lexemes ++ List.replicate r.1.length eof ∧
      r.2.drain.1 = lexemes.drop r.1.length ++ [eof] ∧
      r.2.diagnostics <+: (tokenize source o).2 ∧
      r.2.diagnostics = (tokenize source o).2.filter (fun g => r.1.any (·.span = g.span)) ∧
      r.2.diagnostics <+: (r.2.run more).2.diagnostics ∧
      (r.1.any (·.isEof) → (r.2.run more).2 = r.2) := by
  intro r lexemes eof
  obtain ⟨body, e, hss, hbody, hread⟩ := exists_body o (Cursor.start source)
  have he : e.rest = [] := hread.rest_eq_nil
  have hlexemes : lexemes = body.map (·.token) := filter_isEof hss hbody
  have heof : eof = (Step.atEof e).token := by
    have hoff : e.offset = 0 + source.length := hread.offset
    rw [Nat.zero_add] at hoff
    simp [eof, Step.atEof, Step.spanOf, hoff]
  have hstands : Stands body e r.1 r.2 := by
    have hstart : Stands body e [] (start source o) := .within [] body rfl hss rfl rfl
    exact hstart.run he hbody calls
  obtain ⟨hsofar, hdiagnostics⟩ := hstands.diagnostics_eq hss
  rw [hlexemes, heof]
  exact ⟨hstands.tokens_isPrefix, hstands.tokens_drain he, hsofar, hdiagnostics,
    r.2.diagnostics_prefix_run more, fun h => run_at_end (hstands.rest_eq_nil he hbody h) more⟩

/-- A string that is not closed is reported once, however often the end is asked for. -/
theorem run_agrees_string :
    let source := ascii "a \"b"
    let r := (start source {}).run [.next, .drain, .next]
    let string : Token := ⟨.literal, .str, .string (ascii "b"), ⟨2, 4⟩⟩
    let eof : Token := ⟨.eof, .empty, .absent, ⟨4, 4⟩⟩
    r.1 = [⟨.ident, .empty, .raw (ascii "a"), ⟨0, 1⟩⟩, string, eof, eof] ∧ r.1.any (·.isEof) ∧
      r.2.drain.1 = [eof] ∧
      r.2.diagnostics = (tokenize source {}).2.filter (fun g => r.1.any (·.span = g.span)) ∧
      (r.2.run [.drain, .next]).2 = r.2 := by
  intro source r string eof
  have hr : r.1 = [⟨.ident, .empty, .raw (ascii "a"), ⟨0, 1⟩⟩, string, eof, eof] := by
    decide +kernel
  have heof : r.1.any (·.isEof) := by rw [hr]; rfl
  obtain ⟨-, hdrain, -, hdiagnostics, -, hend⟩ :=
    run_agrees source {} [.next, .drain, .next] [.drain, .next]
  refine ⟨hr, heof, ?_, hdiagnostics, hend heof⟩
  rw [hdrain]
  decide +kernel

end Scanner
end Lexis
