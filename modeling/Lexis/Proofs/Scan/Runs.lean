import Lexis.Proofs.Scan.Lossless

/-!
# Runs and their parts

`takes_step` says what a step can be. Here: nothing else can be, so a step is known as soon as its
gap and its longest spelling are (`Takes.eq_step`), and a run is known step by step. Behind each of
its steps stands a run of its own.

* `steps_of_lexeme`, `steps_of_eof`: the two equations of a run.
* `exists_body`: a run is its lexemes and then the end.
* `steps_split`: what follows a step is the run from the cursor behind it.
* `steps_ordered`, `placed_steps`: the tokens stand in order, and a diagnostic stands where its
  token does. So the diagnostics of a part of a run can be told by their spans.
-/
namespace Lexis

open Grammar Cursor

variable {o : Options} {c d d' e : Cursor} {t t' gap gap' : Bytes}

/-! ## A step is determined by what it takes -/

theorem Cursor.Reads.unique (h : c.Reads t d) (h' : c.Reads t d') : d = d' := by
  have hrest : d.rest = d'.rest := List.append_cancel_left (h.rest.symm.trans h'.rest)
  have hoff := h.offset.trans h'.offset.symm
  have hline := h.line.trans h'.line.symm
  cases d
  cases d'
  simp_all

theorem Skips.unique (h : Skips o c gap d) (h' : Skips o c gap' d') : d = d' := by
  have hgap : gap = gap' := by
    have hrest := h.reads.rest.symm.trans h'.reads.rest
    rw [h.ahead, h'.ahead] at hrest
    exact List.append_cancel_right hrest
  subst hgap
  exact h.reads.unique h'.reads

theorem Grammar.LongestSpelling.unique {s : Bytes} {f f' : Form} (h : LongestSpelling o s f t)
    (h' : LongestSpelling o s f' t') : f = f' ∧ t = t' := by
  have hle := h.longest f' t' h'.spells h'.isPrefix
  have hge := h'.longest f t h.spells h.isPrefix
  have ht : t = t' :=
    (List.prefix_of_prefix_length_le h.isPrefix h'.isPrefix hge).eq_of_length (by omega)
  subst ht
  exact ⟨h.spells.form_unique h'.spells, rfl⟩

theorem Recognises.unique {x x' : Lexeme} {f f' : Form} (h : Recognises o d x f t)
    (h' : Recognises o d x' f' t') : x = x' := by
  obtain ⟨rfl, rfl⟩ := h.longest.unique h'.longest
  have hstop := h.reads.unique h'.reads
  have hkind := h.kind.trans h'.kind.symm
  have hliteral := h.literal.trans h'.literal.symm
  have hmissing := h.missing
  rw [hstop, ← h'.missing] at hmissing
  cases x
  cases x'
  simp_all

theorem Recognises.rest_ne_nil {x : Lexeme} {f : Form} (h : Recognises o d x f t) :
    d.rest ≠ [] := by
  have hne := h.longest.spells.ne_nil
  simp [h.reads.rest, hne]

theorem Takes.unique {s s' : Step} (h : Takes o c s) (h' : Takes o c s') : s = s' := by
  cases h with
  | eof hg hd =>
    cases h' with
    | eof hg' _ => rw [hg.unique hg']
    | lexeme hg' hr' =>
      rw [hg.unique hg'] at hd
      exact absurd hd hr'.rest_ne_nil
  | lexeme hg hr =>
    cases h' with
    | eof hg' hd' =>
      rw [← hg.unique hg'] at hd'
      exact absurd hd' hr.rest_ne_nil
    | lexeme hg' hr' =>
      obtain rfl := hg.unique hg'
      rw [hr.unique hr']

theorem Takes.eq_step {s : Step} (h : Takes o c s) : c.step o = s := (takes_step o c).unique h

/-! ## The equations of a run -/

theorem steps_of_eof (hg : Skips o c gap d) (hd : d.rest = []) : c.steps o = [.atEof d] := by
  have hs : c.step o = .atEof d := (Takes.eof hg hd).eq_step
  rw [steps, hs]
  rfl

theorem steps_of_lexeme {x : Lexeme} {f : Form} (hg : Skips o c gap d)
    (hr : Recognises o d x f t) : c.steps o = .ofLexeme d x :: x.stop.steps o := by
  have hs : c.step o = .ofLexeme d x := (Takes.lexeme hg hr).eq_step
  rw [steps, hs, dif_neg hr.token_ne_eof, Step.stop_ofLexeme]

theorem skips_end (o : Options) (h : e.rest = []) : Skips o e [] e := by
  refine ⟨Reads.refl e, rfl, fun _ => rfl, ?_⟩
  simp [ahead, h]

/-- A run is its lexemes and then the end of the text. -/
theorem exists_body (o : Options) (c : Cursor) :
    ∃ body e, c.steps o = body ++ [.atEof e] ∧ (∀ s ∈ body, s.token.kind ≠ .eof) ∧
      c.Reads c.rest e := by
  refine steps_induction (motive := fun c ss => ∃ body e, ss = body ++ [.atEof e] ∧
    (∀ s ∈ body, s.token.kind ≠ .eof) ∧ c.Reads c.rest e) ?_ ?_ c
  · intro c gap d hg hd
    refine ⟨[], d, rfl, by simp, ?_⟩
    have hrest := hg.reads.rest
    rw [hd, List.append_nil] at hrest
    rw [hrest]
    exact hg.reads
  · intro c gap d x f t hg hr ih
    obtain ⟨body, e, hss, hbody, hread⟩ := ih
    refine ⟨.ofLexeme d x :: body, e, by rw [hss]; rfl, ?_, ?_⟩
    · intro s hs
      rcases List.mem_cons.1 hs with rfl | hs
      · exact hr.token_ne_eof
      · exact hbody s hs
    · rw [hg.reads.rest, hr.reads.rest]
      exact hg.reads.trans (hr.reads.trans hread)

/-- The cursor behind a run stands at the end. -/
theorem Cursor.Reads.rest_eq_nil (h : c.Reads c.rest e) : e.rest = [] := by
  have hlen := congrArg List.length h.rest
  simp only [List.length_append] at hlen
  exact List.length_eq_zero_iff.1 (by omega)

/-- The tokens of a run but the last. -/
theorem filter_isEof {ss body : List Step} (h : ss = body ++ [.atEof e])
    (hbody : ∀ s ∈ body, s.token.kind ≠ .eof) :
    (ss.map (·.token)).filter (!·.isEof) = body.map (·.token) := by
  have hkeep : (body.map (·.token)).filter (!·.isEof) = body.map (·.token) := by
    rw [List.filter_eq_self]
    intro t ht
    obtain ⟨s, hs, rfl⟩ := List.mem_map.1 ht
    simp [Token.isEof, hbody s hs]
  rw [h, List.map_append, List.filter_append, hkeep]
  simp [Step.atEof, Token.isEof]

/-- Nothing is reported of the end. -/
theorem flatMap_diagnostics_body (body : List Step) (e : Cursor) :
    (body ++ [Step.atEof e]).flatMap (·.diagnostics) = body.flatMap (·.diagnostics) := by
  simp [Step.atEof]

/-- Behind a step that is not the end, the run goes on from the cursor there. -/
theorem steps_split {pre post : List Step} {s : Step} (h : c.steps o = pre ++ s :: post)
    (hs : s.token.kind ≠ .eof) :
    post = s.stop.steps o ∧ s.token.span.stop = s.stop.offset ∧ ∃ t, c.Reads t s.stop := by
  revert pre
  refine steps_induction (motive := fun c ss => ∀ {pre}, ss = pre ++ s :: post →
    post = s.stop.steps o ∧ s.token.span.stop = s.stop.offset ∧ ∃ t, c.Reads t s.stop) ?_ ?_ c
  · intro c gap d _ _ pre h
    cases pre with
    | nil =>
      obtain ⟨rfl, -⟩ := List.cons.inj h
      exact absurd rfl hs
    | cons p pre => simp at h
  · intro c gap d x f t hg hr ih pre h
    cases pre with
    | nil =>
      obtain ⟨rfl, rfl⟩ := List.cons.inj h
      rw [Step.stop_ofLexeme, Step.span_ofLexeme]
      exact ⟨rfl, rfl, _, hg.reads.trans hr.reads⟩
    | cons p pre =>
      obtain ⟨hpost, hspan, u, hu⟩ := ih (List.cons.inj h).2
      exact ⟨hpost, hspan, _, (hg.reads.trans hr.reads).trans hu⟩

/-- The first step of a run, and what follows it. -/
theorem steps_behind {post : List Step} {s : Step} (h : c.steps o = s :: post)
    (hs : s.token.kind ≠ .eof) : post = s.stop.steps o := by
  rw [← List.nil_append (s :: post)] at h
  exact (steps_split h hs).1

theorem step_of_steps {s : Step} {ss : List Step} (h : c.steps o = s :: ss) : c.step o = s := by
  rw [steps] at h
  split at h
  · exact (List.cons.inj h).1
  · exact (List.cons.inj h).1

/-! ## Where tokens and diagnostics stand -/

/-- A diagnostic of a step has the span of the token, which then is not empty. -/
structure Step.Placed (s : Step) : Prop where
  start_le_stop : s.token.span.start ≤ s.token.span.stop
  span_eq : ∀ g ∈ s.diagnostics, g.span = s.token.span
  start_lt_stop : ∀ g ∈ s.diagnostics, g.span.start < g.span.stop

/-- What can be reported of a lexeme: what it lacks, or why it has no value. -/
theorem Step.of_mem_ofLexeme {x : Lexeme} {g : Diagnostic} (h : g ∈ (ofLexeme d x).diagnostics) :
    (∃ tag, x.missing = some tag ∧ g = ⟨tag, spanOf d x.stop, d.line, none⟩) ∨
      ∃ v tag reason, x.literal.decode (d.textTo x.stop) = .ok (v, some (.tagged tag reason)) ∧
        g = ⟨tag, spanOf d x.stop, d.line, some reason⟩ := by
  have hmissing : g ∈ x.missing.toList.map
      (fun tag => (⟨tag, spanOf d x.stop, d.line, none⟩ : Diagnostic)) →
        ∃ tag, x.missing = some tag ∧ g = ⟨tag, spanOf d x.stop, d.line, none⟩ := by
    intro hg
    obtain ⟨tag, htag, rfl⟩ := List.mem_map.1 hg
    exact ⟨tag, Option.mem_toList.1 htag, rfl⟩
  unfold ofLexeme literal at h
  dsimp only at h
  split at h
  · rcases List.mem_append.1 h with h | h
    · exact .inl (hmissing h)
    · split at h
      · next v tag reason hr => exact .inr ⟨v, tag, reason, hr, List.mem_singleton.1 h⟩
      · cases h
      · cases h
  · exact .inl (hmissing h)

/-- A diagnostic of a lexeme has its span, and the line on which it starts. -/
theorem Step.place_of_mem_ofLexeme {x : Lexeme} {g : Diagnostic}
    (h : g ∈ (ofLexeme d x).diagnostics) : g.span = spanOf d x.stop ∧ g.line = d.line := by
  rcases of_mem_ofLexeme h with ⟨tag, -, rfl⟩ | ⟨v, tag, reason, -, rfl⟩
  · exact ⟨rfl, rfl⟩
  · exact ⟨rfl, rfl⟩

theorem Recognises.placed {x : Lexeme} {f : Form} (h : Recognises o d x f t) :
    (Step.ofLexeme d x).Placed := by
  have hpos := List.length_pos_iff.2 h.longest.spells.ne_nil
  have hspan : ∀ g ∈ (Step.ofLexeme d x).diagnostics, g.span = .of d.offset t := by
    intro g hg
    exact (Step.place_of_mem_ofLexeme hg).1.trans h.spanOf_eq
  refine ⟨?_, ?_, ?_⟩
  · rw [h.token_span, Span.start_of, Span.stop_of]
    omega
  · intro g hg
    rw [hspan g hg, h.token_span]
  · intro g hg
    rw [hspan g hg, Span.start_of, Span.stop_of]
    omega

theorem placed_steps (o : Options) (c : Cursor) : ∀ s ∈ c.steps o, s.Placed := by
  refine steps_induction (motive := fun _ ss => ∀ s ∈ ss, s.Placed) ?_ ?_ c
  · intro c gap d _ _ s hs
    obtain rfl := List.mem_singleton.1 hs
    exact ⟨Int.le_refl _, by simp [Step.atEof], by simp [Step.atEof]⟩
  · intro c gap d x f t _ hr ih s hs
    rcases List.mem_cons.1 hs with rfl | hs
    · exact hr.placed
    · exact ih s hs

/-- Each step of a run ends before the later ones start. -/
theorem steps_ordered (o : Options) (c : Cursor) :
    (c.steps o).Pairwise fun s s' => s.token.span.stop ≤ s'.token.span.start :=
  List.pairwise_map.1 (laid_steps o c).pairwise

/-! ## The diagnostics of a part of a run -/

section Parts

variable {pre post : List Step} {p : Diagnostic → Bool}

theorem ordered_of_split (h : c.steps o = pre ++ post) :
    ∀ s ∈ pre, ∀ s' ∈ post, s.token.span.stop ≤ s'.token.span.start := by
  have hord := steps_ordered o c
  rw [h, List.pairwise_append] at hord
  exact hord.2.2

theorem placed_of_split (h : c.steps o = pre ++ post) :
    (∀ s ∈ pre, s.Placed) ∧ ∀ s ∈ post, s.Placed := by
  have hplaced := placed_steps o c
  rw [h] at hplaced
  exact ⟨fun s hs => hplaced s (List.mem_append_left _ hs),
    fun s hs => hplaced s (List.mem_append_right _ hs)⟩

/-- A diagnostic on one side of a cut has the span of no token on the other side. -/
theorem apart_of_split (h : c.steps o = pre ++ post) {s s' : Step} (hs : s ∈ pre)
    (hs' : s' ∈ post) :
    (∀ g ∈ s.diagnostics, g.span ≠ s'.token.span) ∧
      ∀ g ∈ s'.diagnostics, g.span ≠ s.token.span := by
  have hord := ordered_of_split h s hs s' hs'
  obtain ⟨hpre, hpost⟩ := placed_of_split h
  constructor
  · intro g hg heq
    have hpos := (hpre s hs).start_lt_stop g hg
    rw [← (hpre s hs).span_eq g hg, ← heq] at hord
    omega
  · intro g hg heq
    have hpos := (hpost s' hs').start_lt_stop g hg
    rw [← (hpost s' hs').span_eq g hg, ← heq] at hord
    omega

theorem filter_diagnostics_eq_self {ss : List Step} (h : ∀ s ∈ ss, ∀ g ∈ s.diagnostics, p g) :
    (ss.flatMap (·.diagnostics)).filter p = ss.flatMap (·.diagnostics) := by
  rw [List.filter_eq_self]
  intro g hg
  obtain ⟨s, hs, hg⟩ := List.mem_flatMap.1 hg
  exact h s hs g hg

theorem filter_diagnostics_eq_nil {ss : List Step}
    (h : ∀ s ∈ ss, ∀ g ∈ s.diagnostics, p g = false) :
    (ss.flatMap (·.diagnostics)).filter p = [] := by
  rw [List.filter_eq_nil_iff]
  intro g hg
  obtain ⟨s, hs, hg⟩ := List.mem_flatMap.1 hg
  simp [h s hs g hg]

/-- The diagnostics that start behind a token are those of the steps behind it. -/
theorem filter_diagnostics_behind {s : Step} (h : c.steps o = pre ++ s :: post) :
    ((c.steps o).flatMap (·.diagnostics)).filter (fun g => s.token.span.stop ≤ g.span.start) =
      post.flatMap (·.diagnostics) := by
  have hcut : c.steps o = (pre ++ [s]) ++ post := by simp [h]
  have hbefore := ordered_of_split h
  have hbehind := ordered_of_split hcut
  obtain ⟨hplaced, hplaced'⟩ := placed_of_split hcut
  rw [hcut, List.flatMap_append, List.filter_append, filter_diagnostics_eq_nil,
    filter_diagnostics_eq_self, List.nil_append]
  · intro s' hs' g hg
    rw [(hplaced' s' hs').span_eq g hg]
    exact decide_eq_true (hbehind s (by simp) s' hs')
  · intro s' hs' g hg
    have hstop : s'.token.span.stop ≤ s.token.span.stop := by
      rcases List.mem_append.1 hs' with hs' | hs'
      · have hle := hbefore s' hs' s (by simp)
        have hle' := (hplaced s (by simp)).start_le_stop
        omega
      · obtain rfl := List.mem_singleton.1 hs'
        exact Int.le_refl _
    have hlt := (hplaced s' hs').start_lt_stop g hg
    rw [← (hplaced s' hs').span_eq g hg] at hstop
    simp only [decide_eq_false_iff_not]
    omega

/-- The diagnostics that start before a token are those of the steps before it. -/
theorem filter_diagnostics_before {s : Step} (h : c.steps o = pre ++ s :: post) :
    ((c.steps o).flatMap (·.diagnostics)).filter (fun g => g.span.start < s.token.span.start) =
      pre.flatMap (·.diagnostics) := by
  have hcut : c.steps o = (pre ++ [s]) ++ post := by simp [h]
  have hbefore := ordered_of_split h
  have hbehind := ordered_of_split hcut
  obtain ⟨hplaced, hplaced'⟩ := placed_of_split h
  have hs := (hplaced' s (by simp)).start_le_stop
  rw [h, List.flatMap_append, List.filter_append, filter_diagnostics_eq_self,
    filter_diagnostics_eq_nil, List.append_nil]
  · intro s' hs' g hg
    rw [(hplaced' s' hs').span_eq g hg]
    simp only [decide_eq_false_iff_not, Int.not_lt]
    rcases List.mem_cons.1 hs' with rfl | hs'
    · exact Int.le_refl _
    · have hle := hbehind s (by simp) s' hs'
      omega
  · intro s' hs' g hg
    have hlt := (hplaced s' hs').start_lt_stop g hg
    have hle := hbefore s' hs' s (by simp)
    rw [← (hplaced s' hs').span_eq g hg] at hle
    simp only [decide_eq_true_eq]
    omega

end Parts
end Lexis
