import Lexis.Proofs.Scan.Recognition
import Lexis.Proofs.Text.Validity

/-!
# Prefixes of lexemes

What a lexeme starts with is a lexeme again, of the same or another form: `0` and `0x` before
`0x1F`, `/` and `/*` before a comment, `12` and `12.` before `12.5`. Only a character above `0x7F`
has to be there as a whole. This is one character of lookahead, said of the grammar: where the
longest lexeme ends before the text does, no further text can make it longer.

* `Spells.of_isPrefix`: the grammar is closed under prefixes.
* `Spells.of_lineEnd`: a lexeme goes on across a line end only where a closing mark is missing.
* `LongestSpelling.append_of_valid`, `LongestSpelling.append_lineEnd`: so the longest lexeme stays
  the longest one when the text goes on.
-/
namespace Lexis
namespace Grammar

variable {o : Options} {f : Form} {b x y : UInt8} {t u v w : Bytes}

/-! ## The grammar is closed under prefixes -/

theorem all_of_isPrefix {p : UInt8 → Bool} (h : u <+: w) (hw : w.all p) : u.all p := by
  rw [List.all_eq_true] at hw ⊢
  intro a ha
  exact hw a (h.subset ha)

theorem not_mem_of_isPrefix (h : u <+: w) (hw : x ∉ w) : x ∉ u := fun hx => hw (h.subset hx)

theorem not_infix_of_isPrefix (h : u <+: w) (hw : ¬ v <:+: w) : ¬ v <:+: u :=
  fun hv => hw (hv.trans h.isInfix)

theorem exists_tail_of_isPrefix (hp : u <+: x :: w) (hu : u ≠ []) : ∃ u', u = x :: u' ∧ u' <+: w :=
  (List.prefix_cons_iff.1 hp).resolve_left hu

/-- A prefix of two texts in a row stays within the first or reaches into the second. -/
theorem isPrefix_append_cases (h : u <+: v ++ w) :
    u <+: v ∨ ∃ r, r ≠ [] ∧ r <+: w ∧ u = v ++ r := by
  rcases List.prefix_or_prefix_of_prefix h (List.prefix_append v w) with h' | ⟨r, rfl⟩
  · exact .inl h'
  · by_cases hr : r = []
    · exact .inl (by simp [hr])
    · exact .inr ⟨r, hr, (List.prefix_append_right_inj v).1 h, rfl⟩

theorem WholeDecimal.of_isPrefix (h : WholeDecimal t) (hp : u <+: t) (hu : u ≠ []) :
    WholeDecimal u := by
  cases h with
  | zero =>
    obtain ⟨u', rfl, hp'⟩ := exists_tail_of_isPrefix hp hu
    rw [List.prefix_nil.1 hp']
    exact .zero
  | nonzero hb hall =>
    obtain ⟨u', rfl, hp'⟩ := exists_tail_of_isPrefix hp hu
    exact .nonzero hb (all_of_isPrefix hp' hall)
  | padded hx hall =>
    obtain ⟨u', rfl, hp'⟩ := exists_tail_of_isPrefix hp hu
    rcases List.prefix_cons_iff.1 hp' with rfl | ⟨u'', rfl, hp''⟩
    · exact .zero
    · exact .padded hx (all_of_isPrefix hp'' hall)

/-- A number with a point, up to the point or beyond it. -/
theorem WholeDecimal.spells_of_isPrefix (h : WholeDecimal t) (hw : w.all digit)
    (hp : u <+: t ++ byte '.' :: w) (hu : u ≠ []) : ∃ f', Spells o f' u := by
  rcases isPrefix_append_cases hp with hp' | ⟨r, hne, hr, rfl⟩
  · exact ⟨_, .decimal (h.of_isPrefix hp' hu)⟩
  · obtain ⟨r', rfl, hr'⟩ := exists_tail_of_isPrefix hr hne
    exact ⟨_, .float h (all_of_isPrefix hr' hw)⟩

/-- The first byte of a mark is a mark. -/
theorem exists_mark_head {k : Kind} (h : (b :: u, k) ∈ marks o) : ∃ k', ([b], k') ∈ marks o := by
  have key : ∀ c, ∀ m ∈ marks { colonPercent := c }, ∃ m' ∈ marks { colonPercent := c },
      m'.1 = [m.1.headD 0] := by decide
  obtain ⟨⟨t, k'⟩, hm, rfl⟩ := key o.colonPercent _ h
  exact ⟨k', hm⟩

theorem spells_mark_of_isPrefix {k : Kind} (h : (t, k) ∈ marks o) (hp : u <+: t) (hu : u ≠ []) :
    ∃ f', Spells o f' u := by
  obtain ⟨b, u, rfl⟩ := List.exists_cons_of_ne_nil hu
  obtain ⟨r, rfl⟩ := hp
  obtain ⟨k', hk'⟩ := exists_mark_head h
  cases u with
  | nil => exact ⟨_, .mark hk'⟩
  | cons y u =>
    rcases mem_marks_cases h with hnil | ⟨z, hz, -⟩
    · cases hnil
    · -- Two bytes are the whole mark.
      obtain ⟨rfl, hnil⟩ := List.cons.inj hz
      obtain ⟨rfl, rfl⟩ := List.append_eq_nil_iff.1 hnil
      exact ⟨_, .mark h⟩

/-- Where one byte and any part of what follows is a lexeme. -/
theorem spells_of_prefix_one (hp : u <+: x :: w) (hu : u ≠ [])
    (more : ∀ u', u' <+: w → ∃ f', Spells o f' (x :: u')) : ∃ f', Spells o f' u := by
  obtain ⟨u', rfl, hp'⟩ := exists_tail_of_isPrefix hp hu
  exact more u' hp'

/-- Where one byte is a lexeme, and so are two bytes and any part of what follows. -/
theorem spells_of_prefix_two {f₁ f₂ : Form} (hp : u <+: x :: y :: w) (hu : u ≠ [])
    (one : Spells o f₁ [x]) (more : ∀ u', u' <+: w → Spells o f₂ (x :: y :: u')) :
    ∃ f', Spells o f' u := by
  refine spells_of_prefix_one hp hu fun u' hp' => ?_
  rcases List.prefix_cons_iff.1 hp' with rfl | ⟨u'', rfl, hp''⟩
  · exact ⟨_, one⟩
  · exact ⟨_, more u'' hp''⟩

/-- What a lexeme starts with is a lexeme, unless the lexeme is a single character above `0x7F`. -/
theorem Spells.of_isPrefix (h : Spells o f t) (hp : u <+: t) (hu : u ≠ []) :
    (∃ f', Spells o f' u) ∨ ∃ c : Char, 0x80 ≤ c.toNat ∧ t = Utf8.encode c := by
  have zero : Spells o .decimal [byte '0'] := .decimal .zero
  have slash : Spells o (.mark .slash) [byte '/'] := .mark (List.mem_append_left _ (by decide))
  have less : Spells o (.mark .lt) [byte '<'] := .mark (List.mem_append_left _ (by decide))
  cases h with
  | whitespace he hb hall =>
    exact .inl (spells_of_prefix_one hp hu fun u' hu' =>
      ⟨_, .whitespace he hb (all_of_isPrefix hu' hall)⟩)
  | ident hb hall =>
    exact .inl (spells_of_prefix_one hp hu fun u' hu' => ⟨_, .ident hb (all_of_isPrefix hu' hall)⟩)
  | decimal hd => exact .inl ⟨_, .decimal (hd.of_isPrefix hp hu)⟩
  | float hd hall => exact .inl (hd.spells_of_isPrefix hall hp hu)
  | octal hx hall =>
    exact .inl (spells_of_prefix_two hp hu zero fun u' hu' => .octal hx (all_of_isPrefix hu' hall))
  | binary hall =>
    exact .inl (spells_of_prefix_two hp hu zero fun u' hu' => .binary (all_of_isPrefix hu' hall))
  | hexadecimal hall =>
    exact .inl (spells_of_prefix_two hp hu zero fun u' hu' =>
      .hexadecimal (all_of_isPrefix hu' hall))
  | str hq =>
    exact .inl (spells_of_prefix_one hp hu fun u' hu' => ⟨_, .str (not_mem_of_isPrefix hu' hq)⟩)
  | strClosed hq =>
    refine .inl (spells_of_prefix_one hp hu fun u' hu' => ?_)
    rcases List.prefix_concat_iff.1 hu' with rfl | hu'
    · exact ⟨_, .strClosed hq⟩
    · exact ⟨_, .str (not_mem_of_isPrefix hu' hq)⟩
  | lineComment hn =>
    exact .inl (spells_of_prefix_two hp hu slash fun u' hu' =>
      .lineComment (not_mem_of_isPrefix hu' hn))
  | blockComment hn =>
    exact .inl (spells_of_prefix_two hp hu slash fun u' hu' =>
      .blockComment (not_infix_of_isPrefix hu' hn))
  | @blockCommentClosed w hn =>
    have more : ∀ u', u' <+: w ++ commentClose →
        Spells o .blockComment (byte '/' :: byte '*' :: u') := by
      intro u' hu'
      rw [show w ++ commentClose = (w ++ [byte '*']) ++ [byte '/'] by simp [commentClose]] at hu'
      rcases List.prefix_concat_iff.1 hu' with rfl | hu'
      · rw [List.append_assoc]
        exact .blockCommentClosed hn
      · exact .blockComment (not_infix_of_isPrefix hu' hn)
    exact .inl (spells_of_prefix_two hp hu slash more)
  | header hx hn =>
    exact .inl (spells_of_prefix_two hp hu less fun u' hu' =>
      .header hx (not_mem_of_isPrefix hu' hn))
  | mark hm => exact .inl (spells_mark_of_isPrefix hm hp hu)
  | unknownByte hb =>
    refine .inl (spells_of_prefix_one hp hu fun u' hu' => ?_)
    rw [List.prefix_nil.1 hu']
    exact ⟨_, .unknownByte hb⟩
  | unknownChar hc => exact .inr ⟨_, hc, rfl⟩

/-! ## Lexemes and line ends -/

theorem not_mem_of_all {p : UInt8 → Bool} (hp : p x = false) (hw : w.all p) : x ∉ w := by
  intro hx
  rw [List.all_eq_true.1 hw x hx] at hp
  cases hp

theorem not_mem_two {z : UInt8} (hx : z ≠ x) (hy : z ≠ y) (hw : z ∉ w) : z ∉ x :: y :: w := by
  simp [hx, hy, hw]

/-- Where blanks are no tokens, only these forms can hold a line end. -/
theorem Spells.form_of_lineEnd (ho : o.emitWhitespace = false) (h : Spells o f t)
    (hn : byte '\n' ∈ t) : f = .str ∨ f = .blockComment ∨ f = .header := by
  cases h with
  | whitespace he =>
    rw [ho] at he
    cases he
  | ident hb hall =>
    have hpart : wordPart o (byte '\n') = false := by
      simp [wordPart, show wordStart (byte '\n') = false from rfl,
        show digit (byte '\n') = false from rfl]
    refine absurd hn (not_mem_of_all hpart ?_)
    simp [wordPart, hb, hall]
  | decimal hd => exact absurd hn (not_mem_of_all rfl hd.all_digit)
  | float hd hall =>
    have hwhole := not_mem_of_all (x := byte '\n') rfl hd.all_digit
    have hfraction := not_mem_of_all (x := byte '\n') rfl hall
    rw [List.mem_append, List.mem_cons] at hn
    simp [hwhole, hfraction, show byte '\n' ≠ byte '.' by decide] at hn
  | octal hx hall =>
    refine absurd hn (not_mem_two (by decide) ?_ (not_mem_of_all rfl hall))
    rintro rfl
    cases hx
  | binary hall | hexadecimal hall =>
    exact absurd hn (not_mem_two (by decide) (by decide) (not_mem_of_all rfl hall))
  | str | strClosed => exact .inl rfl
  | lineComment hn' => exact absurd hn (not_mem_two (by decide) (by decide) hn')
  | blockComment | blockCommentClosed => exact .inr (.inl rfl)
  | header => exact .inr (.inr rfl)
  | mark hm =>
    have key : ∀ c, ∀ m ∈ marks { colonPercent := c }, byte '\n' ∉ m.1 := by decide
    exact absurd hn (key o.colonPercent _ hm)
  | unknownByte hb =>
    rw [← List.mem_singleton.1 hn] at hb
    cases hb
  | unknownChar hc => exact absurd (Utf8.high_bytes_encode hc _ hn) (by decide)

/-- A lexeme that ends with a line end lacks its closing mark already before. -/
theorem Spells.of_concat_lineEnd (ho : o.emitWhitespace = false)
    (h : Spells o f (u ++ [byte '\n'])) (hu : u ≠ []) :
    Spells o f u ∧ f.missing u [] ≠ none := by
  obtain ⟨x, u, rfl⟩ := List.exists_cons_of_ne_nil hu
  have hform := h.form_of_lineEnd ho (by simp)
  generalize hs : x :: u ++ [byte '\n'] = s at h
  rw [List.cons_append] at hs
  cases h with
  | str hq =>
    obtain ⟨rfl, rfl⟩ := List.cons.inj hs
    have hq' := not_mem_of_isPrefix (List.prefix_append _ _) hq
    exact ⟨.str hq', by simp [Form.missing, hq']⟩
  | strClosed =>
    obtain ⟨-, htail⟩ := List.cons.inj hs
    exact absurd (List.append_inj' htail rfl).2 (by decide)
  | blockComment hn =>
    obtain ⟨rfl, htail⟩ := List.cons.inj hs
    cases u with
    | nil => exact absurd (List.cons.inj htail).1 (by decide)
    | cons y u =>
      obtain ⟨rfl, rfl⟩ := List.cons.inj htail
      have hn' := not_infix_of_isPrefix (List.prefix_append _ _) hn
      exact ⟨.blockComment hn', by simp [Form.missing, hn']⟩
  | @blockCommentClosed w =>
    have hsplit : (x :: u) ++ [byte '\n'] =
        (byte '/' :: byte '*' :: (w ++ [byte '*'])) ++ [byte '/'] := by
      simpa [commentClose] using hs
    exact absurd (List.append_inj' hsplit rfl).2 (by decide)
  | header hy hn =>
    obtain ⟨rfl, htail⟩ := List.cons.inj hs
    cases u with
    | nil =>
      obtain ⟨rfl, -⟩ := List.cons.inj htail
      cases hy
    | cons y u =>
      obtain ⟨rfl, rfl⟩ := List.cons.inj htail
      exact ⟨.header hy (not_mem_of_isPrefix (List.prefix_append _ _) hn), by simp [Form.missing]⟩
  | _ => simp at hform

/-- A lexeme that goes on across a line end lacks its closing mark there. -/
theorem Spells.of_lineEnd (ho : o.emitWhitespace = false) (h : Spells o f (u ++ byte '\n' :: v))
    (hu : u ≠ []) : ∃ f', Spells o f' u ∧ f'.missing u [] ≠ none := by
  have hp : u ++ [byte '\n'] <+: u ++ byte '\n' :: v := ⟨v, by simp⟩
  rcases h.of_isPrefix hp (by simp) with ⟨f', hf'⟩ | ⟨c, hc, hs⟩
  · exact ⟨f', hf'.of_concat_lineEnd ho hu⟩
  · have hmem : byte '\n' ∈ Utf8.encode c := by simp [← hs]
    exact absurd (Utf8.high_bytes_encode hc _ hmem) (by decide)

/-! ## Longest lexemes of a text that goes on -/

variable {s : Bytes}

theorem LongestSpelling.ne_nil (h : LongestSpelling o s f t) : s ≠ [] := by
  rintro rfl
  exact h.spells.ne_nil (List.prefix_nil.1 h.isPrefix)

/-- A lexeme that is all of a text is the longest one there. -/
theorem LongestSpelling.eq_of_spells {f' : Form} (h : LongestSpelling o s f t)
    (hs : Spells o f' s) : t = s :=
  h.isPrefix.eq_of_length
    (Nat.le_antisymm h.isPrefix.length_le (h.longest f' s hs (List.prefix_refl s)))

/-- The longest lexeme stays the longest one unless one reaches into what is added. -/
theorem LongestSpelling.append (h : LongestSpelling o s f t)
    (hno : ∀ f' w, w ≠ [] → w <+: v → ¬ Spells o f' (s ++ w)) : LongestSpelling o (s ++ v) f t := by
  refine ⟨h.spells, h.isPrefix.trans (List.prefix_append s v), fun f' u hu hp => ?_⟩
  rcases isPrefix_append_cases hp with hp' | ⟨w, hne, hw, rfl⟩
  · exact h.longest f' u hu hp'
  · exact absurd hu (hno f' w hne hw)

/-- Where the longest lexeme ends before a valid text does, it is the longest one whatever is
added. -/
theorem LongestSpelling.append_of_valid {pre : Bytes} (h : LongestSpelling o s f t) (hne : t ≠ s)
    (hv : Utf8.valid (pre ++ s)) (v : Bytes) : LongestSpelling o (s ++ v) f t := by
  refine h.append fun f' w hw _ hs => ?_
  rcases hs.of_isPrefix (List.prefix_append s w) h.ne_nil with ⟨f'', hf''⟩ | ⟨c, -, hc⟩
  · exact hne (h.eq_of_spells hf'')
  · exact hw (Utf8.eq_nil_of_valid_append hv hc.symm h.ne_nil)

/-- Where no closing mark is missing, the longest lexeme is the longest one also with a line end
behind the text. -/
theorem LongestSpelling.append_lineEnd (ho : o.emitWhitespace = false)
    (h : LongestSpelling o s f t) (hm : t = s → f.missing t [] = none) (v : Bytes) :
    LongestSpelling o (s ++ byte '\n' :: v) f t := by
  refine h.append fun f' w hw hp hs => ?_
  obtain ⟨w', rfl, -⟩ := exists_tail_of_isPrefix hp hw
  obtain ⟨f'', hf'', hmissing⟩ := hs.of_lineEnd ho h.ne_nil
  obtain rfl := h.eq_of_spells hf''
  rw [h.spells.form_unique hf''] at hm
  exact hmissing (hm rfl)

end Grammar
end Lexis
