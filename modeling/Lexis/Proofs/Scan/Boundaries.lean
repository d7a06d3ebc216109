import Lexis.Files
import Lexis.Proofs.Scan.Reports
import Lexis.Proofs.Scan.Runs
import Lexis.Proofs.Text.Agreement

/-!
# Scans stop between characters

A walk over a text goes from one character to the next (`Cursor.walk`). A source is accepted iff the
walk never goes a single byte over what is no character, and then it reads the text without loss.

Spans count bytes, and lexemes are cut by bytes; but every cursor of a scan comes from another one
by steps over whole characters. So all stops of a scan are stops of the walk, and no text that is cut
out of an accepted source has half a character at an end.

* `stop_classify_mem_walk`: a lexeme ends at a stop of the walk.
* `stops_step`, `stops_steps`: so the spans of a step and of a run go from stop to stop.
* `valid_iff_not_stumbles`: the walk and the table of sequences accept the same texts.
* `reads_valid_of_mem_walk`: between two stops lies a valid text.
-/
namespace Lexis

open Grammar Cursor

/-! ## Walks -/

namespace Cursor

/-- The stops of a walk over the text ahead, one character after the other, through the end. -/
def walk (c : Cursor) : List Cursor :=
  match _h : c.peek with
  | none => [c]
  | some _ => c :: walk c.advance
termination_by c.rest.length
decreasing_by exact length_rest_advance_lt _h

/-- The next step goes a single byte forward, over a byte that is no character by itself. -/
def stumbles (c : Cursor) : Bool :=
  c.rest.head?.any (0x80 ≤ ·) && c.advance.offset = c.offset + 1

variable {c d e : Cursor}

theorem mem_walk_self (c : Cursor) : c ∈ c.walk := by
  rw [walk]
  split <;> exact List.mem_cons_self

theorem advance_mem_walk (h : d ∈ c.walk) : d.advance ∈ c.walk := by
  fun_induction walk c with
  | case1 c hp =>
    obtain rfl := List.mem_singleton.1 h
    rw [advance_of_end (peek_eq_none_iff.1 hp)]
    exact List.mem_singleton_self d
  | case2 c ch hp ih =>
    rcases List.mem_cons.1 h with rfl | h
    · exact List.mem_cons_of_mem _ (mem_walk_self _)
    · exact List.mem_cons_of_mem _ (ih h)

theorem mem_walk_trans (h : d ∈ c.walk) (h' : e ∈ d.walk) : e ∈ c.walk := by
  fun_induction walk d with
  | case1 d hp =>
    obtain rfl := List.mem_singleton.1 h'
    exact h
  | case2 d ch hp ih =>
    rcases List.mem_cons.1 h' with rfl | h'
    · exact h
    · exact ih (advance_mem_walk h) h'

theorem advanceWhile_mem_walk (p : Char → Bool) (h : d ∈ c.walk) : d.advanceWhile p ∈ c.walk := by
  fun_induction advanceWhile p d with
  | case1 => exact h
  | case2 d ch hp hch ih => exact ih (advance_mem_walk h)
  | case3 => exact h

end Cursor

/-! ## Lexemes end at stops of the walk -/

namespace Lexeme

variable {c d : Cursor}

theorem stop_pair_mem_walk (second : Char) (long short : Kind) (h : d ∈ c.walk) :
    (pair second long short d).stop ∈ c.walk := by
  unfold pair
  split
  · exact advance_mem_walk h
  · exact h

theorem stop_number_mem_walk (radix : Radix) (h : d ∈ c.walk) :
    (number radix d).stop ∈ c.walk := by
  have hdigits := advanceWhile_mem_walk radix.isDigit h
  unfold number
  split
  · exact hdigits
  · exact hdigits
  · dsimp only
    split
    · exact advanceWhile_mem_walk _ (advance_mem_walk hdigits)
    · exact hdigits
  · exact hdigits

theorem stop_zeroNumber_mem_walk (h : d ∈ c.walk) : (zeroNumber d).stop ∈ c.walk := by
  unfold zeroNumber
  split
  · exact stop_number_mem_walk _ (advance_mem_walk h)
  · exact stop_number_mem_walk _ (advance_mem_walk h)
  · split <;> exact stop_number_mem_walk _ h
  · exact stop_number_mem_walk _ h

theorem stop_string_mem_walk (h : d ∈ c.walk) : (string d).stop ∈ c.walk := by
  have hbody := advanceWhile_mem_walk (· ≠ '"') h
  unfold string
  dsimp only
  split
  · exact hbody
  · exact advance_mem_walk hbody

theorem closeComment_mem_walk (h : d ∈ c.walk) : (closeComment d).1 ∈ c.walk := by
  fun_induction closeComment d with
  | case1 d stop hread =>
    obtain ⟨-, rfl⟩ := read_eq_iff.1 hread
    exact advance_mem_walk h
  | case2 d ch next hread =>
    obtain ⟨-, rfl⟩ := read_eq_iff.1 hread
    exact advance_mem_walk (advance_mem_walk h)
  | case3 d ch next hread hn ih =>
    obtain ⟨-, rfl⟩ := read_eq_iff.1 hread
    exact ih (advance_mem_walk h)

theorem stop_slash_mem_walk (h : d ∈ c.walk) : (slash d).stop ∈ c.walk := by
  unfold slash
  split
  · exact advanceWhile_mem_walk _ h
  · exact closeComment_mem_walk (advance_mem_walk h)
  · exact h

theorem stop_minus_mem_walk (h : d ∈ c.walk) : (minus d).stop ∈ c.walk := by
  unfold minus
  split
  · exact advance_mem_walk h
  · exact advance_mem_walk h
  · exact h

theorem stop_less_mem_walk (h : d ∈ c.walk) : (less d).stop ∈ c.walk := by
  unfold less
  split
  · split
    · exact advanceWhile_mem_walk _ h
    · exact stop_pair_mem_walk _ _ _ h
  · exact stop_pair_mem_walk _ _ _ h

theorem stop_classify_mem_walk (o : Options) (first : Char) (h : d ∈ c.walk) :
    (classify o first d).stop ∈ c.walk := by
  unfold classify
  split
  · exact stop_slash_mem_walk h
  · exact stop_zeroNumber_mem_walk h
  · exact stop_string_mem_walk h
  · exact stop_minus_mem_walk h
  · exact stop_less_mem_walk h
  iterate 4 exact stop_pair_mem_walk _ _ _ h
  · split
    · exact stop_number_mem_walk _ h
    · split
      · exact advanceWhile_mem_walk _ h
      · exact h

end Lexeme

/-! ## Spans go from stop to stop -/

/-- The span of a token and the cursor behind it, in a walk. -/
structure Step.Stops (c : Cursor) (s : Step) (d : Cursor) : Prop where
  start : d ∈ c.walk
  stop : s.stop ∈ d.walk
  span : s.token.span = Step.spanOf d s.stop

theorem stops_atLexeme (o : Options) {c d : Cursor} (h : d ∈ c.walk) :
    (Step.atLexeme o d).Stops c d := by
  unfold Step.atLexeme
  split
  · next stop hread =>
    obtain ⟨hp, rfl⟩ := read_eq_iff.1 hread
    rw [advance_of_end (peek_eq_none_iff.1 hp)]
    exact ⟨h, mem_walk_self d, rfl⟩
  · next first next hread =>
    obtain ⟨-, rfl⟩ := read_eq_iff.1 hread
    refine ⟨h, ?_, ?_⟩
    · rw [Step.stop_ofLexeme]
      exact Lexeme.stop_classify_mem_walk o first (advance_mem_walk (mem_walk_self d))
    · rw [Step.stop_ofLexeme, Step.span_ofLexeme]

theorem stops_step (o : Options) (c : Cursor) : ∃ d, (c.step o).Stops c d := by
  have hahead := advanceWhile_mem_walk isBlank (mem_walk_self c)
  unfold step
  dsimp only
  split
  · exact ⟨c, mem_walk_self c, hahead, rfl⟩
  · exact ⟨_, stops_atLexeme o hahead⟩

theorem stops_steps (o : Options) (c : Cursor) : ∀ s ∈ c.steps o, ∃ d, s.Stops c d := by
  fun_induction steps o c with
  | case1 c s hk =>
    intro s' hs'
    obtain rfl := List.mem_singleton.1 hs'
    exact stops_step o c
  | case2 c s hk ih =>
    intro s' hs'
    rcases List.mem_cons.1 hs' with rfl | hs'
    · exact stops_step o c
    · obtain ⟨d, hd⟩ := ih s' hs'
      obtain ⟨e, he⟩ := stops_step o c
      exact ⟨d, mem_walk_trans (mem_walk_trans he.start he.stop) hd.start, hd.stop, hd.span⟩

/-! ## Walks over valid texts -/

namespace Cursor

variable {c d : Cursor}

/-- A step over a stray byte goes a single byte forward. -/
theorem stumbles_of_stray {b x : UInt8} {rest : Bytes} (hc : c.rest = b :: rest)
    (hd : Utf8.decode b rest = .stray x) : c.stumbles := by
  have hhigh : 0x80 ≤ b.toNat := by
    refine Nat.le_of_not_lt fun hlow => ?_
    rw [Utf8.decode_ascii hlow] at hd
    cases hd
  have hoff := (reads_advance hc).offset
  rw [Rune.length_bytes, hd] at hoff
  simp only [stumbles, hc, List.head?_cons, Option.any_some, UInt8.le_iff_toNat_le,
    UInt8.reduceToNat, hhigh, decide_true, Bool.true_and, decide_eq_true_eq]
  exact hoff

/-- A step over a character does not. -/
theorem not_stumbles_of_char {b : UInt8} {rest : Bytes} {ch : Char} (hc : c.rest = b :: rest)
    (hd : Utf8.decode b rest = .char ch) : ¬ c.stumbles := by
  intro hs
  simp only [stumbles, hc, List.head?_cons, Option.any_some, UInt8.le_iff_toNat_le,
    UInt8.reduceToNat, Bool.and_eq_true, decide_eq_true_eq] at hs
  obtain ⟨more, hbytes, -⟩ := Utf8.bytes_decode b rest
  have hoff := (reads_advance hc).offset
  rw [hbytes, List.length_cons] at hoff
  obtain rfl : more = [] := List.length_eq_zero_iff.1 (by omega)
  -- The character would be the byte alone, and the table has no such row.
  have hvalid := Utf8.valid_encode_append ch []
  rw [hd, Rune.bytes] at hbytes
  rw [hbytes, List.append_nil, Utf8.not_valid_lead hs.1] at hvalid
  cases hvalid

theorem valid_rest_of_char {b : UInt8} {rest : Bytes} {ch : Char} (hc : c.rest = b :: rest)
    (hd : Utf8.decode b rest = .char ch) : Utf8.valid c.rest = Utf8.valid c.advance.rest := by
  have hrest := (reads_advance hc).rest
  rw [hd, Rune.bytes] at hrest
  rw [hrest, Utf8.valid_encode_append]

/-- The table accepts the texts that a walk gets over without stumbling. -/
theorem valid_iff_not_stumbles (c : Cursor) :
    Utf8.valid c.rest ↔ ∀ d ∈ c.walk, ¬ d.stumbles := by
  fun_induction walk c with
  | case1 c hp =>
    have hrest := peek_eq_none_iff.1 hp
    simp [hrest, stumbles, Utf8.valid, Utf8.validFrom]
  | case2 c ch hp ih =>
    obtain ⟨b, rest, hc, -⟩ := exists_rest_of_peek hp
    rw [List.forall_mem_cons, ← ih]
    cases hd : Utf8.decode b rest with
    | char ch =>
      rw [valid_rest_of_char hc hd]
      exact (and_iff_right (not_stumbles_of_char hc hd)).symm
    | stray x =>
      constructor
      · intro hv
        rw [hc] at hv
        obtain ⟨ch, hch, -⟩ := Utf8.decode_of_valid hv
        rw [hd] at hch
        cases hch
      · rintro ⟨hn, -⟩
        exact absurd (stumbles_of_stray hc hd) hn

/-- The next character of a valid text, and what is read with it. -/
theorem reads_char_of_valid {ch : Char} (hv : Utf8.valid c.rest) (hp : c.peek = some ch) :
    c.Reads (Utf8.encode ch) c.advance ∧ Utf8.valid c.advance.rest := by
  obtain ⟨b, rest, hc, rfl⟩ := exists_rest_of_peek hp
  have hv' := hv
  rw [hc] at hv'
  obtain ⟨ch, hd, -⟩ := Utf8.decode_of_valid hv'
  have hr := reads_advance hc
  rw [valid_rest_of_char hc hd] at hv
  rw [hd] at hr ⊢
  exact ⟨hr, hv⟩

/-- The characters that a walk reads, encoded again, are the text. -/
theorem flatMap_encode_walk (hv : Utf8.valid c.rest) :
    (c.walk.filterMap fun d => d.read.1).flatMap Utf8.encode = c.rest := by
  have hread : (fun d : Cursor => d.read.1) = peek := funext fun d => by rw [read_eq]
  rw [hread]
  fun_induction walk c with
  | case1 c hp => simp [hp, peek_eq_none_iff.1 hp]
  | case2 c ch hp ih =>
    obtain ⟨hr, hv'⟩ := reads_char_of_valid hv hp
    rw [List.filterMap_cons_some hp, List.flatMap_cons, ih hv', hr.rest]

/-- Between two stops of a walk over a valid text lies a valid text. -/
theorem reads_valid_of_mem_walk (hv : Utf8.valid c.rest) (h : d ∈ c.walk) :
    ∃ t, c.Reads t d ∧ Utf8.valid t ∧ Utf8.valid d.rest := by
  fun_induction walk c with
  | case1 c hp =>
    obtain rfl := List.mem_singleton.1 h
    exact ⟨[], Reads.refl d, rfl, hv⟩
  | case2 c ch hp ih =>
    rcases List.mem_cons.1 h with rfl | h
    · exact ⟨[], Reads.refl d, rfl, hv⟩
    · obtain ⟨hr, hv'⟩ := reads_char_of_valid hv hp
      obtain ⟨t, ht, hvt, hvd⟩ := ih hv' h
      exact ⟨_, hr.trans ht, by rwa [Utf8.valid_encode_append], hvd⟩

end Cursor

/-! ## Texts and values of an accepted source -/

/-- A step that goes from stop to stop in a valid source has a valid text. -/
theorem Step.Stops.text {source : Bytes} {s : Step} {d : Cursor} (hv : Utf8.valid source)
    (h : s.Stops (Cursor.start source) d) :
    ∃ u, s.token.text source = .ok u ∧ Utf8.valid u := by
  obtain ⟨t, ht, -, hvd⟩ := reads_valid_of_mem_walk (c := Cursor.start source) hv h.start
  obtain ⟨u, hu, hvu, -⟩ := reads_valid_of_mem_walk hvd h.stop
  refine ⟨u, ?_, hvu⟩
  have hinside : d.Inside source := ⟨t, ht⟩
  rw [Token.text, h.span, Step.spanOf, hu.offset]
  exact hinside.slice_eq hu

/-- The text of a decoded value is cut out of the lexeme. -/
theorem Literal.Gives.valid_text {l : Literal} {lexeme : Bytes} {v : Value}
    (h : l.Gives lexeme v) (hv : Utf8.valid lexeme)
    (hbody : l.category = .str → Utf8.valid (lexeme.drop l.prefixLen.toNat)) :
    Utf8.valid v.text := by
  cases h with
  | int n => rfl
  | float => rfl
  | raw => exact hv
  | str hc =>
    have hbody := hbody hc
    rw [Value.text, Literal.stringBody]
    split
    · next hlast =>
      rw [← List.dropLast_append_getLast? _ hlast] at hbody
      exact Utf8.valid_of_concat_ascii (by decide) hbody
    · exact hbody

/-- Behind its opening quote a string is as valid as before. -/
theorem Grammar.Spells.valid_body {o : Options} {f : Form} {t : Bytes} (h : Spells o f t)
    (hv : Utf8.valid t) (hs : f.literal.category = .str) :
    Utf8.valid (t.drop f.literal.prefixLen.toNat) := by
  cases h with
  | str | strClosed =>
    rw [Utf8.valid_cons_ascii (by decide)] at hv
    exact hv
  | _ => cases hs

theorem Recognises.valid_value {o : Options} {t : Bytes} {d : Cursor} {x : Lexeme} {f : Form}
    (h : Recognises o d x f t) (hv : Utf8.valid t) :
    Utf8.valid (Step.ofLexeme d x).token.value.text := by
  rcases h.gives with habsent | hgives
  · rw [habsent]
    rfl
  · exact hgives.valid_text hv (h.longest.spells.valid_body hv)

/-- A token with a valid text has a valid value. -/
theorem valid_value_steps {source : Bytes} {o : Options} {c : Cursor} (hc : c.Inside source) :
    ∀ s ∈ c.steps o, ∀ u, s.token.text source = .ok u → Utf8.valid u →
      Utf8.valid s.token.value.text := by
  refine forall_mem_steps ?_ ?_ hc
  · intro d _ u _ _
    rfl
  · intro d x f t hd hr u hu hv
    rw [hr.token_text hd, Except.ok.injEq] at hu
    subst hu
    exact hr.valid_value hv

/-! ## Sources -/

theorem read_eq_ok_iff {path b : Bytes} {s : Source} :
    Source.read path (.ok b) = .ok s ↔ Utf8.valid b ∧ s = ⟨path, b⟩ := by
  unfold Source.read
  dsimp only
  split
  · next hv => simp [hv, eq_comm]
  · next hv => simp [hv]

/-- The offsets at which a walk over a source stops. -/
def walkOffsets (source : Bytes) : List Int := (Cursor.start source).walk.map (·.offset)

theorem ends_of_mem_tokens {source : Bytes} {o : Options} {t : Token}
    (h : t ∈ (tokenize source o).1) :
    t.span.start ∈ walkOffsets source ∧ t.span.stop ∈ walkOffsets source := by
  obtain ⟨s, hs, rfl⟩ := List.mem_map.1 h
  obtain ⟨d, hd⟩ := stops_steps o (Cursor.start source) s hs
  rw [hd.span]
  exact ⟨List.mem_map_of_mem hd.start, List.mem_map_of_mem (mem_walk_trans hd.start hd.stop)⟩

theorem ends_of_mem_diagnostics {source : Bytes} {o : Options} {g : Diagnostic}
    (h : g ∈ (tokenize source o).2) :
    g.span.start ∈ walkOffsets source ∧ g.span.stop ∈ walkOffsets source := by
  obtain ⟨s, hs, hg⟩ := List.mem_flatMap.1 h
  rw [(placed_steps o _ s hs).span_eq g hg]
  exact ends_of_mem_tokens (List.mem_map_of_mem hs)

theorem valid_of_mem_tokens {source : Bytes} {o : Options} {t : Token} (hv : Utf8.valid source)
    (h : t ∈ (tokenize source o).1) :
    (∃ u, t.text source = .ok u ∧ Utf8.valid u) ∧ Utf8.valid t.value.text := by
  obtain ⟨s, hs, rfl⟩ := List.mem_map.1 h
  obtain ⟨d, hd⟩ := stops_steps o (Cursor.start source) s hs
  obtain ⟨u, hu, hvu⟩ := hd.text hv
  exact ⟨⟨u, hu, hvu⟩, valid_value_steps (inside_start source) s hs u hu hvu⟩

/-- A source is accepted iff a walk over it never stumbles; then nothing of it is lost, and nothing
that a scan cuts out of it has a part of a character at an end. -/
theorem read_walk (path b : Bytes) :
    ((∃ s, Source.read path (.ok b) = .ok s) ↔ ∀ c ∈ (Cursor.start b).walk, ¬ c.stumbles) ∧
      ∀ s, Source.read path (.ok b) = .ok s → s.text = b ∧
        ((Cursor.start b).walk.filterMap fun c => c.read.1).flatMap Utf8.encode = b ∧
        ∀ o,
          (∀ t ∈ (tokenize s.text o).1,
            (t.span.start ∈ walkOffsets b ∧ t.span.stop ∈ walkOffsets b) ∧
              (∃ u, t.text s.text = .ok u ∧ Utf8.valid u) ∧
              ∀ u, t.value = .raw u ∨ t.value = .string u → Utf8.valid u) ∧
          ∀ g ∈ (tokenize s.text o).2,
            g.span.start ∈ walkOffsets b ∧ g.span.stop ∈ walkOffsets b := by
  constructor
  · rw [← valid_iff_not_stumbles]
    constructor
    · rintro ⟨s, hs⟩
      exact (read_eq_ok_iff.1 hs).1
    · intro hv
      exact ⟨_, read_eq_ok_iff.2 ⟨hv, rfl⟩⟩
  · intro s hs
    obtain ⟨hv, rfl⟩ := read_eq_ok_iff.1 hs
    refine ⟨rfl, flatMap_encode_walk hv, fun o => ⟨fun t ht => ?_, fun g hg => ?_⟩⟩
    · obtain ⟨htext, hvalue⟩ := valid_of_mem_tokens hv ht
      refine ⟨ends_of_mem_tokens ht, htext, fun u hu => ?_⟩
      rcases hu with hu | hu <;> simpa [hu, Value.text] using hvalue
    · exact ends_of_mem_diagnostics hg

/-- A string that is not closed behind an accent, which takes two bytes. -/
theorem read_walk_accent :
    let b := byte '"' :: Utf8.encode 'é'
    let cut : Diagnostic := ⟨.unterminatedString, ⟨0, 3⟩, 1, none⟩
    Source.read (ascii "a.c") (.ok b) = .ok ⟨ascii "a.c", b⟩ ∧
      ((Cursor.start b).walk.filterMap fun c => c.read.1).flatMap Utf8.encode = b ∧
      (tokenize b {}).2 = [cut] ∧ walkOffsets b = [0, 1, 3] ∧
      cut.span.start ∈ walkOffsets b ∧ cut.span.stop ∈ walkOffsets b := by
  intro b cut
  have hread : Source.read (ascii "a.c") (.ok b) = .ok ⟨ascii "a.c", b⟩ := by decide
  have hcut : (tokenize b {}).2 = [cut] := by decide +kernel
  obtain ⟨-, hlossless, hscan⟩ := (read_walk (ascii "a.c") b).2 _ hread
  refine ⟨hread, hlossless, hcut, by decide +kernel, ?_⟩
  exact (hscan {}).2 cut (by rw [hcut]; exact List.mem_singleton_self cut)

end Lexis
