import Lexis.Proofs.Scan.Steps

/-!
# Skipped blanks and blank tokens

A run that skips blanks and one that emits them take the same steps, but for the whitespace tokens
of the second (`Thins`). The two stutter against each other: where blanks lie ahead, the emitting
run takes one step more, and then both stand before the same lexeme.

* `thins_steps`: the simulation, from every cursor.
* `Thins.filter_eq`, `Thins.flatMap_diagnostics`, `Thins.getLast?_eq`: what it leaves unchanged.
-/
namespace Lexis

open Grammar Cursor

namespace Options

def emitting (o : Options) : Options := { o with emitWhitespace := true }

def skipping (o : Options) : Options := { o with emitWhitespace := false }

end Options

/-! ## Thinning -/

/-- The second run is the first without its whitespace. -/
inductive Thins : List Step → List Step → Prop where
  | last {s : Step} : s.token.kind ≠ .whitespace → Thins [s] [s]
  | keep {s : Step} {ss ss' : List Step} : s.token.kind ≠ .whitespace → Thins ss ss' →
      Thins (s :: ss) (s :: ss')
  | drop {s : Step} {ss ss' : List Step} : s.token.kind = .whitespace → s.diagnostics = [] →
      Thins ss ss' → Thins (s :: ss) ss'

namespace Thins

variable {ss ss' : List Step}

theorem filter_eq (h : Thins ss ss') :
    (ss.map (·.token)).filter (·.kind ≠ .whitespace) = ss'.map (·.token) := by
  induction h with
  | last hs => simp [hs]
  | keep hs _ ih => simpa [hs] using ih
  | drop hs _ _ ih => simpa [hs] using ih

theorem flatMap_diagnostics (h : Thins ss ss') :
    ss'.flatMap (·.diagnostics) = ss.flatMap (·.diagnostics) := by
  induction h with
  | last => rfl
  | keep _ _ ih => simp [ih]
  | drop _ hs _ ih => simp [hs, ih]

theorem getLast?_eq (h : Thins ss ss') :
    ∃ s, ss.getLast? = some s ∧ ss'.getLast? = some s := by
  induction h with
  | @last s => exact ⟨s, rfl, rfl⟩
  | keep _ _ ih | drop _ _ _ ih =>
    obtain ⟨s, h1, h2⟩ := ih
    exact ⟨s, by simp [List.getLast?_cons, h1], by simp [List.getLast?_cons, h2]⟩

end Thins

/-! ## The simulation -/

theorem atLexeme_emitting (o : Options) (c : Cursor) :
    Step.atLexeme o.emitting c = Step.atLexeme o.skipping c := rfl

theorem step_skipping (o : Options) (c : Cursor) :
    c.step o.skipping = Step.atLexeme o.skipping (c.advanceWhile isBlank) := rfl

theorem step_emitting_of_blank {o : Options} {c : Cursor} (h : c.peek.any isBlank) :
    c.step o.emitting = ⟨Step.plain c .whitespace (c.advanceWhile isBlank), [],
      c.advanceWhile isBlank⟩ := by
  unfold step
  rw [h]
  rfl

/-- Behind the blanks both runs take the same step. -/
theorem step_emitting_advanceWhile (o : Options) (c : Cursor) :
    (c.advanceWhile isBlank).step o.emitting = c.step o.skipping := by
  have h := any_peek_advanceWhile isBlank c
  rw [step_skipping, ← atLexeme_emitting]
  unfold step
  rw [h, Bool.and_false, advanceWhile_eq_self h]
  rfl

theorem Grammar.Spells.kind_ne_whitespace {o : Options} {f : Form} {t : Bytes}
    (h : Spells o.skipping f t) : f.kind ≠ .whitespace := by
  cases h with
  | whitespace he => exact absurd he Bool.false_ne_true
  | mark hm =>
    rintro rfl
    exact kind_of_mem_marks hm (by decide)
  | _ => exact fun h => nomatch h

theorem kind_step_skipping (o : Options) (c : Cursor) :
    (c.step o.skipping).token.kind ≠ .whitespace := by
  have ht := takes_step o.skipping c
  generalize c.step o.skipping = s at ht
  cases ht with
  | eof => exact fun h => nomatch h
  | lexeme _ hr =>
    rw [hr.token_kind]
    exact hr.longest.spells.kind_ne_whitespace

/-- If the simulation holds from behind the blanks, it holds from before them. -/
theorem thins_of_advanceWhile {o : Options} {c : Cursor} {ss : List Step}
    (h : Thins ((c.advanceWhile isBlank).steps o.emitting) ss) :
    Thins (c.steps o.emitting) ss := by
  cases hb : c.peek.any isBlank with
  | true =>
    rw [steps, step_emitting_of_blank hb]
    exact .drop rfl rfl h
  | false => rwa [advanceWhile_eq_self hb] at h

theorem thins_steps (o : Options) (c : Cursor) :
    Thins (c.steps o.emitting) (c.steps o.skipping) := by
  fun_induction steps o.skipping c with
  | case1 c s hk =>
    apply thins_of_advanceWhile
    rw [steps, step_emitting_advanceWhile, dif_pos hk]
    exact .last (kind_step_skipping o c)
  | case2 c s hk ih =>
    apply thins_of_advanceWhile
    rw [steps, step_emitting_advanceWhile, dif_neg hk]
    exact .keep (kind_step_skipping o c) ih

/-- Skipping blanks is emitting them and leaving them out. -/
theorem tokenize_skipping (source : Bytes) (o : Options) :
    (tokenize source o.skipping).1 =
        (tokenize source o.emitting).1.filter (·.kind ≠ .whitespace) ∧
      (tokenize source o.skipping).2 = (tokenize source o.emitting).2 ∧
      (Scanner.start source o.skipping).drain.2.line =
        (Scanner.start source o.emitting).drain.2.line := by
  have h := thins_steps o (Cursor.start source)
  obtain ⟨s, h1, h2⟩ := h.getLast?_eq
  refine ⟨h.filter_eq.symm, ?_, ?_⟩
  · simp only [tokenize_eq, h.flatMap_diagnostics]
  · simp [Scanner.drain, Scanner.start, Scanner.line, h1, h2]

end Lexis
