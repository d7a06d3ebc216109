import Lexis.Proofs.Scan.Reports
import Lexis.Proofs.Scan.Runs

/-!
# What the options change

An option is a change of the grammar, and what it does to a run follows from there. Knowing the
colon and the percent sign gives a form of their own to two lexemes that were unknown, and cuts
nothing in another way. Digits in identifiers make an identifier longer if a digit stands behind it,
and leave every other lexeme as it was; so two runs stay together up to the first such identifier.

* `LongestSpelling.withColonPercent`, `steps_withColonPercent`: the same cuts, other labels.
* `LongestSpelling.withIdentDigits_ident`, `LongestSpelling.withIdentDigits_of_ne`: an identifier
  goes on through the digits, nothing else does.
* `steps_withIdentDigits`: the same steps as long as no identifier stands before a digit.
-/
namespace Lexis

open Grammar Cursor

namespace Options

def withColonPercent (o : Options) : Options := { o with colonPercent := true }

def withoutColonPercent (o : Options) : Options := { o with colonPercent := false }

def withIdentDigits (o : Options) : Options := { o with identDigits := true }

def withoutIdentDigits (o : Options) : Options := { o with identDigits := false }

end Options

variable {o : Options} {c d : Cursor} {x : Lexeme} {f : Form} {s t gap rest : Bytes}

namespace Grammar

/-- All that a form asks of the options. -/
theorem Spells.of_options {o' : Options} (h : Spells o f t)
    (hblank : o.emitWhitespace → o'.emitWhitespace)
    (hident : f = .ident → ∀ b, wordPart o b → wordPart o' b)
    (hmark : ∀ k, f = .mark k → (t, k) ∈ marks o → (t, k) ∈ marks o')
    (hunknown : f = .unknown → ∀ b, lead o b = false → lead o' b = false) : Spells o' f t := by
  cases h with
  | whitespace he hb hu => exact .whitespace (hblank he) hb hu
  | ident hb hu =>
    rw [List.all_eq_true] at hu
    exact .ident hb (List.all_eq_true.2 fun b hmem => hident rfl b (hu b hmem))
  | decimal hd => exact .decimal hd
  | float hd hu => exact .float hd hu
  | octal hb hu => exact .octal hb hu
  | binary hu => exact .binary hu
  | hexadecimal hu => exact .hexadecimal hu
  | str hu => exact .str hu
  | strClosed hu => exact .strClosed hu
  | lineComment hu => exact .lineComment hu
  | blockComment hu => exact .blockComment hu
  | blockCommentClosed hu => exact .blockCommentClosed hu
  | header hb hu => exact .header hb hu
  | mark hm => exact .mark (hmark _ rfl hm)
  | unknownByte hb => exact .unknownByte (hunknown rfl _ hb)
  | unknownChar hc => exact .unknownChar hc

/-! ## Colon and percent sign -/

/-- The form of a lexeme once the colon and the percent sign are known. -/
def Form.relabel (f : Form) (t : Bytes) : Form :=
  if f ≠ .unknown then f
  else if t = ascii ":" then .mark .colon
  else if t = ascii "%" then .mark .percent
  else .unknown

theorem Form.literal_relabel (f : Form) (t : Bytes) : (f.relabel t).literal = f.literal := by
  unfold relabel
  split
  · rfl
  · next hf =>
    rw [not_not.1 hf]
    repeat' split
    all_goals rfl

theorem Form.missing_relabel (f : Form) (t rest : Bytes) :
    (f.relabel t).missing t rest = f.missing t rest := by
  unfold relabel
  split
  · rfl
  · next hf =>
    rw [not_not.1 hf]
    repeat' split
    all_goals rfl

theorem marks_withColonPercent (o : Options) :
    marks o.withColonPercent = marks o.withoutColonPercent ++
      [(ascii ":", .colon), (ascii "%", .percent)] := rfl

theorem lead_withColonPercent (o : Options) (b : UInt8) :
    lead o.withColonPercent b =
      (lead o.withoutColonPercent b || b = byte ':' || b = byte '%') := by
  have hhead : markStart o.withColonPercent b =
      (markStart o.withoutColonPercent b || b = byte ':' || b = byte '%') := by
    unfold markStart
    rw [marks_withColonPercent, List.any_append]
    simp [ascii, Bool.or_assoc, eq_comm]
  unfold lead
  rw [hhead]
  simp [Bool.or_assoc]

/-- Every lexeme is one also with the two signs known, under its new label. -/
theorem Spells.withColonPercent (h : Spells o.withoutColonPercent f t) :
    Spells o.withColonPercent (f.relabel t) t := by
  by_cases hf : f = .unknown
  · subst hf
    have hmarks := marks_withColonPercent o
    cases h with
    | @unknownByte b hb =>
      have hlead := lead_withColonPercent o b
      unfold Form.relabel
      rw [if_neg (by simp)]
      split
      · next hcolon => exact .mark (by simp [hmarks, hcolon])
      · next hcolon =>
        split
        · next hpercent => exact .mark (by simp [hmarks, hpercent])
        · next hpercent =>
          refine .unknownByte ?_
          simp_all [ascii]
    | @unknownChar ch hc =>
      -- No byte of the character is below `0x80`, so it is neither of the two signs.
      have hne : ∀ b : UInt8, b.toNat < 0x80 → Utf8.encode ch ≠ [b] := by
        intro b hb heq
        have hhigh := Utf8.high_bytes_encode hc b (by simp [heq])
        omega
      have hcolon : Utf8.encode ch ≠ ascii ":" := hne (byte ':') (by decide)
      have hpercent : Utf8.encode ch ≠ ascii "%" := hne (byte '%') (by decide)
      simp only [Form.relabel, hcolon, hpercent, ne_eq, not_true_eq_false, if_false]
      exact .unknownChar hc
  · rw [Form.relabel, if_pos hf]
    refine h.of_options id (fun _ _ => id) (fun k _ hm => ?_) fun hu => absurd hu hf
    exact List.mem_append_left _ hm

/-- No text becomes a lexeme by knowing the two signs: each was one before, of some form. -/
theorem Spells.withoutColonPercent (h : Spells o.withColonPercent f t) :
    ∃ f', Spells o.withoutColonPercent f' t := by
  by_cases hsign : t = ascii ":" ∨ t = ascii "%"
  · rcases hsign with rfl | rfl
    · exact ⟨.unknown, .unknownByte rfl⟩
    · exact ⟨.unknown, .unknownByte rfl⟩
  · refine ⟨f, h.of_options id (fun _ _ => id) (fun k _ hm => ?_) fun _ b hb => ?_⟩
    · rw [marks_withColonPercent] at hm
      simp_all
    · rw [lead_withColonPercent] at hb
      simp_all

theorem LongestSpelling.withColonPercent (h : LongestSpelling o.withoutColonPercent s f t) :
    LongestSpelling o.withColonPercent s (f.relabel t) t := by
  refine ⟨h.spells.withColonPercent, h.isPrefix, fun f' u hu hp => ?_⟩
  obtain ⟨f'', hu'⟩ := hu.withoutColonPercent
  exact h.longest f'' u hu' hp

end Grammar

/-- The token with the colon and the percent sign known. -/
def Token.relabel (source : Bytes) (t : Token) : Token :=
  { t with kind :=
      if t.kind ≠ .unknown then t.kind
      else if t.text source = .ok (ascii ":") then .colon
      else if t.text source = .ok (ascii "%") then .percent
      else .unknown }

def Step.relabel (source : Bytes) (s : Step) : Step := { s with token := s.token.relabel source }

/-- No mark has the kind of an identifier or of an unknown lexeme. -/
theorem Grammar.Spells.kind_eq_iff {f' : Form} (h : Spells o f t)
    (hf : f' = .ident ∨ f' = .unknown) : f.kind = f'.kind ↔ f = f' := by
  refine ⟨fun hk => ?_, fun heq => heq ▸ rfl⟩
  cases h with
  | mark hm =>
    have hkind := kind_of_mem_marks hm
    rcases hf with rfl | rfl
    · exact absurd (by simp_all [Form.kind]) hkind
    · exact absurd (by simp_all [Form.kind]) hkind
  | _ => rcases hf with rfl | rfl <;> simp_all [Form.kind]

theorem Skips.withColonPercent (h : Skips o.withoutColonPercent c gap d) :
    Skips o.withColonPercent c gap d :=
  ⟨h.reads, h.blanks, h.none, h.ahead⟩

theorem Recognises.withColonPercent (h : Recognises o.withoutColonPercent d x f t) :
    Recognises o.withColonPercent d { x with kind := (f.relabel t).kind } (f.relabel t) t where
  longest := h.longest.withColonPercent
  reads := h.reads
  kind := rfl
  literal := h.literal.trans (f.literal_relabel t).symm
  missing := h.missing.trans (f.missing_relabel t _).symm

theorem Grammar.Form.kind_relabel_unknown (t : Bytes) :
    (Form.unknown.relabel t).kind =
      if t = ascii ":" then .colon else if t = ascii "%" then .percent else .unknown := by
  unfold relabel
  rw [if_neg (by simp)]
  repeat' split
  all_goals rfl

/-- The step of a lexeme under its new label. -/
theorem Recognises.relabel_ofLexeme {source : Bytes}
    (h : Recognises o.withoutColonPercent d x f t) (hd : d.Inside source) :
    Step.ofLexeme d { x with kind := (f.relabel t).kind } =
      (Step.ofLexeme d x).relabel source := by
  by_cases hf : f = .unknown
  · subst hf
    have hkind : Form.unknown.kind = .unknown := rfl
    have htext : Token.text ⟨.unknown, .empty, .raw t, .of d.offset t⟩ source = .ok t :=
      hd.slice_eq h.reads
    have hplain : (Form.unknown.relabel t).kind ≠ .literal := by
      rw [Form.kind_relabel_unknown]
      repeat' split
      all_goals simp
    rw [h.withColonPercent.ofLexeme_plain hplain, h.ofLexeme_plain (by simp [hkind])]
    simp [Step.relabel, Token.relabel, hkind, htext, Form.kind_relabel_unknown, unclosed,
      Form.missing_relabel]
  · have hne : f.kind ≠ .unknown := fun hk => hf ((h.longest.spells.kind_eq_iff (.inr rfl)).1 hk)
    have hsame : ({ x with kind := (f.relabel t).kind } : Lexeme) = x := by
      rw [Form.relabel, if_pos hf, ← h.kind]
    rw [← h.token_kind] at hne
    rw [hsame, Step.relabel, Token.relabel, if_pos hne]

/-- With the two signs known, a run takes the same steps under new labels. -/
theorem steps_withColonPercent {source : Bytes} (hc : c.Inside source) :
    c.steps o.withColonPercent =
      (c.steps o.withoutColonPercent).map (Step.relabel source) := by
  revert hc
  refine steps_induction (motive := fun c ss => c.Inside source →
    c.steps o.withColonPercent = ss.map (Step.relabel source)) ?_ ?_ c
  · intro c gap d hg hd _
    rw [steps_of_eof hg.withColonPercent hd]
    rfl
  · intro c gap d x f t hg hr ih hc
    have hd := hc.reads hg.reads
    rw [steps_of_lexeme hg.withColonPercent hr.withColonPercent, hr.relabel_ofLexeme hd,
      List.map_cons]
    exact congrArg _ (ih (hd.reads hr.reads))

/-- Knowing the colon and the percent sign changes the kinds of these two, and nothing else. -/
theorem tokenize_colonPercent (source : Bytes) (o : Options) :
    (tokenize source o.withColonPercent).1 =
        (tokenize source o.withoutColonPercent).1.map (Token.relabel source) ∧
      (tokenize source o.withColonPercent).2 = (tokenize source o.withoutColonPercent).2 := by
  have h := steps_withColonPercent (o := o) (inside_start source)
  simp only [tokenize_eq, h, List.map_map, List.flatMap_map]
  exact ⟨rfl, rfl⟩

/-! ## Digits in identifiers -/

namespace Grammar

theorem wordPart_withIdentDigits (o : Options) (b : UInt8) :
    wordPart o.withIdentDigits b = (wordPart o.withoutIdentDigits b || digit b) := by
  simp [wordPart, Options.withIdentDigits, Options.withoutIdentDigits]

theorem Spells.withIdentDigits (h : Spells o.withoutIdentDigits f t) :
    Spells o.withIdentDigits f t := by
  refine h.of_options id (fun _ b hb => ?_) (fun _ _ => id) fun _ _ => id
  rw [wordPart_withIdentDigits, hb]
  rfl

/-- Only identifiers have more spellings. -/
theorem Spells.withoutIdentDigits (h : Spells o.withIdentDigits f t) (hf : f ≠ .ident) :
    Spells o.withoutIdentDigits f t :=
  h.of_options id (fun hident => absurd hident hf) (fun _ _ => id) fun _ _ => id

/-- Two lexemes at one place start with the same byte. -/
theorem Spells.opening_eq_of_isPrefix {f' : Form} {u : Bytes} (h : Spells o f t) (ht : t <+: s)
    (h' : Spells o f' u) (hu : u <+: s) : f.opening = f'.opening := by
  obtain ⟨b, t, rfl⟩ := List.exists_cons_of_ne_nil h.ne_nil
  obtain ⟨b', u, rfl⟩ := List.exists_cons_of_ne_nil h'.ne_nil
  obtain ⟨r, rfl⟩ := ht
  obtain rfl : b' = b := (List.cons_prefix_cons.1 hu).1
  exact h.opening_eq.symm.trans h'.opening_eq

theorem Form.eq_ident_of_opening (h : f.opening = .word) : f = .ident := by
  cases f with
  | ident => rfl
  | _ => cases h

/-- A lexeme that is no identifier stays the longest one. -/
theorem LongestSpelling.withIdentDigits_of_ne (h : LongestSpelling o.withoutIdentDigits s f t)
    (hf : f ≠ .ident) : LongestSpelling o.withIdentDigits s f t := by
  refine ⟨h.spells.withIdentDigits, h.isPrefix, fun f' u hu hp => ?_⟩
  have hopening := h.spells.withIdentDigits.opening_eq_of_isPrefix h.isPrefix hu hp
  refine h.longest f' u (hu.withoutIdentDigits ?_) hp
  rintro rfl
  exact hf (Form.eq_ident_of_opening hopening)

/-- An identifier goes on as far as there are digits and letters behind it. -/
theorem LongestSpelling.withIdentDigits_ident (h : LongestSpelling o.withoutIdentDigits s .ident t)
    (hs : s = t ++ rest) :
    LongestSpelling o.withIdentDigits s .ident
      (t ++ rest.takeWhile (wordPart o.withIdentDigits)) := by
  have hspells := h.spells.withIdentDigits
  cases hspells with
  | @ident b u hb hu =>
    have hl := longest_ident (o := o.withIdentDigits) hb (u ++ rest)
    rw [List.takeWhile_append_of_pos (List.all_eq_true.1 hu)] at hl
    rw [hs]
    exact hl

/-- What stands behind an identifier goes on with it only from a digit on. -/
theorem LongestSpelling.takeWhile_eq_nil_iff (h : LongestSpelling o.withoutIdentDigits s .ident t)
    (hs : s = t ++ rest) :
    rest.takeWhile (wordPart o.withIdentDigits) = [] ↔ rest.head?.any digit = false := by
  cases rest with
  | nil => simp
  | cons b rest =>
    have hstop : wordPart o.withoutIdentDigits b = false := by
      rw [Bool.eq_false_iff]
      intro hb
      have hspells := h.spells
      cases hspells with
      | @ident a u ha hu =>
        have hmore : Spells o.withoutIdentDigits .ident (a :: (u ++ [b])) :=
          .ident ha (by simp [hu, hb])
        have hle := h.longest _ _ hmore ⟨rest, by simp [hs]⟩
        simp only [List.length_cons, List.length_append, List.length_nil] at hle
        omega
    simp [List.takeWhile_cons, wordPart_withIdentDigits, hstop]

end Grammar

/-- An identifier with a decimal digit right behind it. -/
def Token.touchesDigit (source : Bytes) (t : Token) : Bool :=
  t.kind = .ident && (source[t.span.stop.toNat]?).any digit

/-- The byte behind a lexeme is the first one of what follows it. -/
theorem Recognises.touchesDigit_eq {source : Bytes} (h : Recognises o d x f t)
    (hd : d.Inside source) :
    (Step.ofLexeme d x).token.touchesDigit source =
      (f = .ident && x.stop.rest.head?.any digit) := by
  have hstop : (Step.ofLexeme d x).token.span.stop = x.stop.offset := by
    rw [h.token_span, h.reads.offset]
    rfl
  have hkind : f.kind = .ident ↔ f = .ident := h.longest.spells.kind_eq_iff (.inl rfl)
  rw [Token.touchesDigit, h.token_kind, hstop, Int.toNat_natCast,
    (hd.reads h.reads).getElem?_offset]
  simp [hkind]

theorem Skips.withIdentDigits (h : Skips o.withoutIdentDigits c gap d) :
    Skips o.withIdentDigits c gap d :=
  ⟨h.reads, h.blanks, h.none, h.ahead⟩

/-- A lexeme that does not touch a digit is found again. -/
theorem Recognises.withIdentDigits {source : Bytes} (h : Recognises o.withoutIdentDigits d x f t)
    (hd : d.Inside source) (hno : (Step.ofLexeme d x).token.touchesDigit source = false) :
    Recognises o.withIdentDigits d x f t := by
  refine ⟨?_, h.reads, h.kind, h.literal, h.missing⟩
  rw [h.touchesDigit_eq hd] at hno
  by_cases hf : f = .ident
  · subst hf
    have hl := h.longest.withIdentDigits_ident h.reads.rest
    rw [(h.longest.takeWhile_eq_nil_iff h.reads.rest).2 (by simpa using hno),
      List.append_nil] at hl
    exact hl
  · exact h.longest.withIdentDigits_of_ne hf

/-- An identifier that touches a digit goes on from the same place. -/
theorem Recognises.exists_longer {source : Bytes} (h : Recognises o.withoutIdentDigits d x f t)
    (hg : Skips o.withoutIdentDigits c gap d) (hd : d.Inside source)
    (hyes : (Step.ofLexeme d x).token.touchesDigit source) :
    ∃ s ss, c.steps o.withIdentDigits = s :: ss ∧ s.token.kind = .ident ∧
      s.token.span.start = (Step.ofLexeme d x).token.span.start ∧
      (Step.ofLexeme d x).token.span.stop < s.token.span.stop := by
  rw [h.touchesDigit_eq hd, Bool.and_eq_true, decide_eq_true_eq] at hyes
  obtain ⟨rfl, hdigit⟩ := hyes
  have hmore := mt (h.longest.takeWhile_eq_nil_iff h.reads.rest).1 (by simp [hdigit])
  have hpos := List.length_pos_iff.2 hmore
  have hlonger := h.longest.withIdentDigits_ident h.reads.rest
  have ht := takes_step o.withIdentDigits c
  generalize c.step o.withIdentDigits = s at ht
  cases ht with
  | eof hg' hend =>
    rw [← hg.withIdentDigits.unique hg'] at hend
    exact absurd hend h.rest_ne_nil
  | lexeme hg' hr =>
    obtain rfl := hg.withIdentDigits.unique hg'
    obtain ⟨rfl, rfl⟩ := hlonger.unique hr.longest
    refine ⟨_, _, steps_of_lexeme hg' hr, hr.token_kind, ?_, ?_⟩
    · rw [hr.token_span, h.token_span]
      rfl
    · rw [hr.token_span, h.token_span, Span.stop_of, Span.stop_of, List.length_append]
      omega

/-- The first steps of a run are taken again if none of them touches a digit, and from there both
runs go on at the same place. -/
theorem steps_withIdentDigits {source : Bytes} {pre post : List Step} (hc : c.Inside source)
    (h : c.steps o.withoutIdentDigits = pre ++ post) (hpost : post ≠ [])
    (hpre : ∀ s ∈ pre, s.token.touchesDigit source = false) :
    ∃ d : Cursor, d.Inside source ∧ d.steps o.withoutIdentDigits = post ∧
      c.steps o.withIdentDigits = pre ++ d.steps o.withIdentDigits := by
  induction pre generalizing c with
  | nil => exact ⟨c, hc, h, rfl⟩
  | cons s pre ih =>
    have ht := takes_step o.withoutIdentDigits c
    generalize c.step o.withoutIdentDigits = s' at ht
    cases ht with
    | eof hg hd =>
      rw [steps_of_eof hg hd] at h
      have hnil := (List.cons.inj h).2
      simp [hpost] at hnil
    | lexeme hg hr =>
      have hd := hc.reads hg.reads
      rw [steps_of_lexeme hg hr] at h
      obtain ⟨rfl, hrest⟩ := List.cons.inj h
      have hr' := hr.withIdentDigits hd (hpre _ (by simp))
      obtain ⟨e, he, hpost', hsteps⟩ :=
        ih (hd.reads hr.reads) hrest fun s hs => hpre s (by simp [hs])
      refine ⟨e, he, hpost', ?_⟩
      rw [steps_of_lexeme hg.withIdentDigits hr', hsteps]
      rfl

/-- A run without identifiers that touch a digit is the same with digits in identifiers. -/
theorem steps_withIdentDigits_eq {source : Bytes} (hc : c.Inside source)
    (h : ∀ s ∈ c.steps o.withoutIdentDigits, s.token.touchesDigit source = false) :
    c.steps o.withIdentDigits = c.steps o.withoutIdentDigits := by
  obtain ⟨body, e, hss, -, -⟩ := exists_body o.withoutIdentDigits c
  obtain ⟨d, -, hd, hsteps⟩ := steps_withIdentDigits hc hss (by simp)
    fun s hs => h s (by simp [hss, hs])
  have ht := takes_step o.withoutIdentDigits d
  generalize d.step o.withoutIdentDigits = s at ht
  cases ht with
  | eof hg hend =>
    rw [hsteps, hss, ← hd, steps_of_eof hg hend, steps_of_eof hg.withIdentDigits hend]
  | lexeme hg hr =>
    rw [steps_of_lexeme hg hr] at hd
    have hkind := congrArg (·.token.kind) (List.cons.inj hd).1
    exact absurd hkind hr.token_ne_eof

/-- The first step that touches a digit is the first one that differs. -/
theorem steps_diverge {source : Bytes} {pre post : List Step} {s : Step} (hc : c.Inside source)
    (h : c.steps o.withoutIdentDigits = pre ++ s :: post)
    (hpre : ∀ s ∈ pre, s.token.touchesDigit source = false)
    (hs : s.token.touchesDigit source) :
    ∃ s' post', c.steps o.withIdentDigits = pre ++ s' :: post' ∧ s'.token.kind = .ident ∧
      s'.token.span.start = s.token.span.start ∧ s.token.span.stop < s'.token.span.stop := by
  obtain ⟨d, hd, hpost, hsteps⟩ := steps_withIdentDigits hc h (by simp) hpre
  have ht := takes_step o.withoutIdentDigits d
  generalize d.step o.withoutIdentDigits = r at ht
  cases ht with
  | eof hg hend =>
    rw [steps_of_eof hg hend] at hpost
    obtain ⟨rfl, -⟩ := List.cons.inj hpost
    simp [Token.touchesDigit, Step.atEof] at hs
  | lexeme hg hr =>
    rw [steps_of_lexeme hg hr] at hpost
    obtain ⟨rfl, -⟩ := List.cons.inj hpost
    obtain ⟨s', post', hfirst, hkind, hstart, hstop⟩ :=
      hr.exists_longer hg (hd.reads hg.reads) hs
    exact ⟨s', post', by rw [hsteps, hfirst], hkind, hstart, hstop⟩

/-- Digits in identifiers change a scan from the first identifier on that touches a digit, and not
at all where there is none. -/
theorem tokenize_identDigits (source : Bytes) (o : Options) :
    let a := tokenize source o.withoutIdentDigits
    let b := tokenize source o.withIdentDigits
    ((∀ t ∈ a.1, t.touchesDigit source = false) → a = b) ∧
      ∀ pre t post, a.1 = pre ++ t :: post → (∀ t' ∈ pre, t'.touchesDigit source = false) →
        t.touchesDigit source →
        (∃ t' post', b.1 = pre ++ t' :: post' ∧ t'.kind = .ident ∧
          t'.span.start = t.span.start ∧ t.span.stop < t'.span.stop) ∧
        a.2.filter (fun g => g.span.start < t.span.start) =
          b.2.filter (fun g => g.span.start < t.span.start) := by
  intro a b
  have hstart := inside_start source
  constructor
  · intro hnone
    have hsteps := steps_withIdentDigits_eq (o := o) hstart fun s hs =>
      hnone s.token (List.mem_map_of_mem hs)
    simp only [a, b, tokenize_eq, hsteps]
  · intro pre t post ha hpre ht
    obtain ⟨pre', rest', hss, rfl, hrest⟩ := List.map_eq_append_iff.1 ha
    obtain ⟨s, post', rfl, rfl, rfl⟩ := List.map_eq_cons_iff.1 hrest
    obtain ⟨s', after, hb, hkind, hs', hstop⟩ := steps_diverge hstart hss
      (fun s hs => hpre s.token (List.mem_map_of_mem hs)) ht
    refine ⟨⟨s'.token, after.map (·.token), ?_, hkind, hs', hstop⟩, ?_⟩
    · simp only [b, tokenize_eq, hb, List.map_append, List.map_cons]
    · have hbefore := filter_diagnostics_before hss
      have hbefore' := filter_diagnostics_before hb
      rw [hs'] at hbefore'
      exact hbefore.trans hbefore'.symm

/-- The number behind the first identifier, and what was wrong with it, are gone: they are part of
the identifier. What lies before it stays, with its report. -/
theorem tokenize_identDigits_number :
    let source := ascii "0b a0x.5"
    let a := tokenize source {}
    let b := tokenize source { identDigits := true }
    let word : Token := ⟨.ident, .empty, .raw (ascii "a"), ⟨3, 4⟩⟩
    a.1 = a.1.take 1 ++ word :: a.1.drop 2 ∧ word.touchesDigit source ∧
      (∃ t' post', b.1 = a.1.take 1 ++ t' :: post' ∧ t'.kind = .ident ∧ t'.span.start = 3 ∧
        4 < t'.span.stop) ∧
      a.2.length = 2 ∧ b.2.length = 1 ∧
      a.2.filter (fun g => g.span.start < 3) = b.2.filter (fun g => g.span.start < 3) := by
  intro source a b word
  have ha : a.1 = a.1.take 1 ++ word :: a.1.drop 2 := by decide +kernel
  have hpre : ∀ t' ∈ a.1.take 1, t'.touchesDigit source = false := by decide +kernel
  have hword : word.touchesDigit source := by decide
  obtain ⟨hlonger, hdiagnostics⟩ := (tokenize_identDigits source {}).2 _ _ _ ha hpre hword
  exact ⟨ha, hword, hlonger, by decide +kernel, by decide +kernel, hdiagnostics⟩

end Lexis
