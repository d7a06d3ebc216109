import Lexis.Proofs.Scan.Grammar

/-!
# The longest lexeme at the front of a text

For every way a text can start, the lexeme there that no other one exceeds. Where one or two bytes
settle the form, only lexemes of that form compete (`LongestSpelling.of_lead`). Numbers in decimal
and marks have more than one form to look at.

* `LongestSpelling.whole`: a lexeme is the longest one of itself.
* `longest_decimal`, `longest_float`: a run of digits goes on past a point if one follows.
* `longest_strClosed`, `longest_blockCommentClosed`: a lexeme ends at its first closing mark.
* `longest_unknown`: where nothing known starts, the lexeme is one unit.
-/
namespace Lexis
namespace Grammar

variable {o : Options}

/-! ## Runs of bytes -/

theorem length_le_takeWhile {p : UInt8 → Bool} {u s : Bytes} (h : u <+: s) (hu : u.all p) :
    u.length ≤ (s.takeWhile p).length := by
  obtain ⟨r, rfl⟩ := h
  rw [List.takeWhile_append_of_pos (List.all_eq_true.1 hu), List.length_append]
  exact Nat.le_add_right _ _

theorem all_ne_iff {x : UInt8} {u : Bytes} : u.all (fun b => decide (b ≠ x)) ↔ x ∉ u := by
  rw [List.all_eq_true]
  constructor
  · intro h hx
    exact absurd (h x hx) (by simp)
  · intro h b hb
    refine decide_eq_true ?_
    rintro rfl
    exact h hb

theorem not_mem_takeWhile_ne (x : UInt8) (s : Bytes) :
    x ∉ s.takeWhile (fun b => decide (b ≠ x)) :=
  all_ne_iff.1 List.all_takeWhile

/-- Digits up to a point are all the digits there. -/
theorem digits_point_prefix {t v s : Bytes} (ht : t.all digit) (h : t ++ byte '.' :: v <+: s) :
    t = s.takeWhile digit ∧ byte '.' :: v <+: s.dropWhile digit := by
  obtain ⟨r, rfl⟩ := h
  rw [List.append_assoc, List.takeWhile_append_of_pos (List.all_eq_true.1 ht),
    List.dropWhile_append_of_pos (List.all_eq_true.1 ht), List.cons_append,
    List.takeWhile_cons_of_neg (by decide), List.dropWhile_cons_of_neg (by decide),
    List.append_nil]
  exact ⟨rfl, List.prefix_append (byte '.' :: v) r⟩

/-! ## Competing lexemes -/

theorem LongestSpelling.whole {f : Form} {s : Bytes} (h : Spells o f s) : LongestSpelling o s f s :=
  ⟨h, List.prefix_refl s, fun _ _ _ hp => hp.length_le⟩

/-- Where the bytes `p` settle the form, only lexemes of that form compete. -/
theorem LongestSpelling.of_lead {f : Form} {p t s : Bytes} (hf : ∀ u, formOf o (p ++ u) = f)
    (h : Spells o f (p ++ t)) (hp : t <+: s)
    (hl : ∀ u, Spells o f (p ++ u) → u <+: s → u.length ≤ t.length) :
    LongestSpelling o (p ++ s) f (p ++ t) := by
  refine ⟨h, (List.prefix_append_right_inj p).2 hp, fun f' w hw hpw => ?_⟩
  rcases Nat.le_total w.length p.length with hle | hle
  · rw [List.length_append]
    omega
  · obtain ⟨u, rfl⟩ := List.prefix_of_prefix_length_le (List.prefix_append p s) hpw hle
    obtain rfl : f = f' := (hf u).symm.trans hw.formOf_eq
    have := hl u hw ((List.prefix_append_right_inj p).1 hpw)
    simpa using this

/-- The first byte alone leaves the forms with its opening. -/
theorem LongestSpelling.of_opening {f : Form} {b : UInt8} {t s : Bytes} (h : Spells o f (b :: t))
    (hp : t <+: s)
    (hl : ∀ f' v, f'.opening = f.opening → Spells o f' (b :: v) → v <+: s → v.length ≤ t.length) :
    LongestSpelling o (b :: s) f (b :: t) := by
  refine ⟨h, List.cons_prefix_cons.2 ⟨rfl, hp⟩, fun f' u hu hpu => ?_⟩
  rcases List.prefix_cons_iff.1 hpu with rfl | ⟨v, rfl, hv⟩
  · exact Nat.zero_le _
  · have := hl f' v (hu.opening_eq.symm.trans h.opening_eq) hu hv
    simpa using this

/-! ## Runs -/

/-- Where a form is some lead and then bytes of a class, it ends with the run of these bytes. -/
theorem longest_run {f : Form} {p : Bytes} {q : UInt8 → Bool} (hf : ∀ u, formOf o (p ++ u) = f)
    (hs : ∀ u, Spells o f (p ++ u) ↔ u.all q) (s : Bytes) :
    LongestSpelling o (p ++ s) f (p ++ s.takeWhile q) := by
  refine .of_lead hf ((hs _).2 List.all_takeWhile) (List.takeWhile_prefix q) ?_
  intro u hu hp
  exact length_le_takeWhile hp ((hs u).1 hu)

theorem longest_whitespace {b : UInt8} (he : o.emitWhitespace) (hb : blank b) (s : Bytes) :
    LongestSpelling o (b :: s) .whitespace (b :: s.takeWhile blank) := by
  refine longest_run (p := [b]) (fun u => ?_) (fun u => ⟨?_, .whitespace he hb⟩) s
  · rw [List.singleton_append, formOf, opening_of_blank hb]
  · rintro ⟨⟩
    assumption

theorem longest_ident {b : UInt8} (hb : wordStart b) (s : Bytes) :
    LongestSpelling o (b :: s) .ident (b :: s.takeWhile (wordPart o)) := by
  refine longest_run (p := [b]) (fun u => ?_) (fun u => ⟨?_, .ident hb⟩) s
  · rw [List.singleton_append, formOf, opening_of_wordStart hb]
  · rintro ⟨⟩
    assumption

theorem longest_lineComment (s : Bytes) :
    LongestSpelling o (byte '/' :: byte '/' :: s) .lineComment
      (byte '/' :: byte '/' :: s.takeWhile fun b => decide (b ≠ byte '\n')) := by
  refine longest_run (p := [byte '/', byte '/']) (fun _ => rfl) (fun u => ⟨?_, ?_⟩) s
  · rintro ⟨⟩
    exact all_ne_iff.2 ‹_›
  · exact fun hu => .lineComment (all_ne_iff.1 hu)

theorem longest_header {b : UInt8} (hb : letter b) (s : Bytes) :
    LongestSpelling o (byte '<' :: b :: s) .header
      (byte '<' :: b :: s.takeWhile fun x => decide (x ≠ byte '>')) := by
  refine longest_run (p := [byte '<', b]) (formOf_header o hb) (fun u => ⟨?_, ?_⟩) s
  · rintro ⟨⟩
    exact all_ne_iff.2 ‹_›
  · exact fun hu => .header hb (all_ne_iff.1 hu)

theorem longest_binary (s : Bytes) :
    LongestSpelling o (byte '0' :: byte 'b' :: s) .binary
      (byte '0' :: byte 'b' :: s.takeWhile binaryDigit) := by
  refine longest_run (p := [byte '0', byte 'b']) (fun _ => rfl) (fun u => ⟨?_, .binary⟩) s
  rintro ⟨⟩
  assumption

theorem longest_hexadecimal (s : Bytes) :
    LongestSpelling o (byte '0' :: byte 'x' :: s) .hexadecimal
      (byte '0' :: byte 'x' :: s.takeWhile hexDigit) := by
  refine longest_run (p := [byte '0', byte 'x']) (fun _ => rfl) (fun u => ⟨?_, .hexadecimal⟩) s
  rintro ⟨⟩
  assumption

theorem longest_octal {b : UInt8} (hb : octalDigit b) (s : Bytes) :
    LongestSpelling o (byte '0' :: b :: s) .octal (byte '0' :: b :: s.takeWhile octalDigit) := by
  refine longest_run (p := [byte '0', b]) (formOf_octal o hb) (fun u => ⟨?_, .octal hb⟩) s
  rintro ⟨⟩
  assumption

/-! ## Closed strings and comments -/

/-- A string ends at the first quote behind the opening one. -/
theorem longest_strClosed {body : Bytes} (hq : byte '"' ∉ body) (rest : Bytes) :
    LongestSpelling o (byte '"' :: (body ++ byte '"' :: rest)) .str
      (byte '"' :: (body ++ [byte '"'])) := by
  have hpre : body ++ [byte '"'] <+: body ++ byte '"' :: rest := ⟨rest, by simp⟩
  refine .of_lead (p := [byte '"']) (fun _ => rfl) (.strClosed hq) hpre ?_
  intro v hv hp
  refine Nat.le_of_not_lt fun hlt => ?_
  have hin : body ++ [byte '"'] <+: v :=
    List.prefix_of_prefix_length_le hpre hp (Nat.le_of_lt hlt)
  cases hv with
  | str hu => exact hu (hin.subset (by simp))
  | strClosed hu =>
    -- The longer one would hold the first quote in its body.
    simp only [List.append_eq] at hlt hin
    rcases List.prefix_concat_iff.1 hin with heq | hin
    · rw [heq] at hlt
      exact Nat.lt_irrefl _ hlt
    · exact hu (hin.subset (by simp))

/-- A comment ends at the first closing mark behind the opening one. -/
theorem longest_blockCommentClosed {u : Bytes} (hu : ¬ commentClose <:+: u ++ [byte '*'])
    (rest : Bytes) :
    LongestSpelling o (byte '/' :: byte '*' :: (u ++ commentClose ++ rest)) .blockComment
      (byte '/' :: byte '*' :: (u ++ commentClose)) := by
  have hpre : u ++ commentClose <+: u ++ commentClose ++ rest := List.prefix_append _ _
  have hclose : commentClose <:+: u ++ commentClose := (List.suffix_append _ _).isInfix
  refine .of_lead (p := [byte '/', byte '*']) (fun _ => rfl) (.blockCommentClosed hu) hpre ?_
  intro v hv hp
  refine Nat.le_of_not_lt fun hlt => ?_
  have hin : u ++ commentClose <+: v :=
    List.prefix_of_prefix_length_le hpre hp (Nat.le_of_lt hlt)
  cases hv with
  | blockComment hv => exact hv (hclose.trans hin.isInfix)
  | @blockCommentClosed w hw =>
    -- The longer one would hold the first closing mark before its own.
    simp only [List.append_eq] at hlt hin
    rw [show w ++ commentClose = (w ++ [byte '*']) ++ [byte '/'] by simp [commentClose]] at hin hlt
    rcases List.prefix_concat_iff.1 hin with heq | hin
    · rw [heq] at hlt
      exact Nat.lt_irrefl _ hlt
    · exact hw (hclose.trans hin.isInfix)

/-! ## Numbers in decimal -/

/-- The digit `b` and what follows do not start a number in another radix. -/
def DecimalLead (b : UInt8) (s : Bytes) : Prop :=
  digit b ∧ (b = byte '0' →
    ∀ x, s.head? = some x → octalDigit x = false ∧ x ≠ byte 'b' ∧ x ≠ byte 'x')

theorem DecimalLead.wholeDecimal {b : UInt8} {s : Bytes} (h : DecimalLead b s) :
    WholeDecimal (b :: s.takeWhile digit) := by
  have hall : (s.takeWhile digit).all digit := List.all_takeWhile
  by_cases hz : b = byte '0'
  · subst hz
    cases s with
    | nil => exact .zero
    | cons x u =>
      by_cases hx : digit x
      · have key := (classes_apart x).2.2.2.2.2.2.1
        rw [List.takeWhile_cons_of_pos hx, List.all_cons, Bool.and_eq_true] at *
        exact .padded (key hx (h.2 rfl x rfl).1) hall.2
      · rw [List.takeWhile_cons_of_neg hx]
        exact .zero
  · have key := (classes_apart b).2.2.2.2.2.2.2
    exact .nonzero (key h.1 hz) hall

/-- Numbers that start in decimal are a run of digits, or one with a point and another run. -/
theorem DecimalLead.spells_cases {f : Form} {b : UInt8} {v s : Bytes} (h : DecimalLead b s)
    (hv : Spells o f (b :: v)) (hf : f.opening = .number) (hp : v <+: s) :
    v.all digit ∨ ∃ u, v = s.takeWhile digit ++ byte '.' :: u ∧ u.all digit ∧
      byte '.' :: u <+: s.dropWhile digit := by
  have second : ∀ x u, v = x :: u → s.head? = some x := by
    rintro x u rfl
    obtain ⟨r, rfl⟩ := hp
    rfl
  generalize hs : b :: v = t at hv
  cases hv with
  | decimal hd =>
    have := hd.all_digit
    rw [← hs, List.all_cons, Bool.and_eq_true] at this
    exact Or.inl this.2
  | @float t u hd hu =>
    obtain ⟨x, w, rfl, -⟩ := hd.exists_cons
    obtain ⟨rfl, rfl⟩ := List.cons.inj hs
    have hw := hd.all_digit
    rw [List.all_cons, Bool.and_eq_true] at hw
    obtain ⟨rfl, hr⟩ := digits_point_prefix hw.2 hp
    exact Or.inr ⟨u, rfl, hu, hr⟩
  | octal hx _ =>
    obtain ⟨rfl, rfl⟩ := List.cons.inj hs
    have := (h.2 rfl _ (second _ _ rfl)).1
    rw [hx] at this
    cases this
  | binary =>
    obtain ⟨rfl, rfl⟩ := List.cons.inj hs
    exact absurd rfl (h.2 rfl _ (second _ _ rfl)).2.1
  | hexadecimal =>
    obtain ⟨rfl, rfl⟩ := List.cons.inj hs
    exact absurd rfl (h.2 rfl _ (second _ _ rfl)).2.2
  | _ => cases hf

theorem longest_decimal {b : UInt8} {s : Bytes} (h : DecimalLead b s)
    (hdot : (s.dropWhile digit).head? ≠ some (byte '.')) :
    LongestSpelling o (b :: s) .decimal (b :: s.takeWhile digit) := by
  refine .of_opening (.decimal h.wholeDecimal) (List.takeWhile_prefix _) ?_
  intro f' v hf hv hp
  rcases h.spells_cases hv hf hp with hd | ⟨u, -, -, r, hr⟩
  · exact length_le_takeWhile hp hd
  · rw [← hr] at hdot
    exact absurd rfl hdot

theorem longest_float {b : UInt8} {s r : Bytes} (h : DecimalLead b s)
    (hdot : s.dropWhile digit = byte '.' :: r) :
    LongestSpelling o (b :: s) .float
      (b :: (s.takeWhile digit ++ byte '.' :: r.takeWhile digit)) := by
  have hs : s.takeWhile digit ++ byte '.' :: r.takeWhile digit <+: s := by
    conv => rhs; rw [← List.takeWhile_append_dropWhile (p := digit) (l := s), hdot]
    exact (List.prefix_append_right_inj _).2
      (List.cons_prefix_cons.2 ⟨rfl, List.takeWhile_prefix _⟩)
  refine .of_opening (.float h.wholeDecimal List.all_takeWhile) hs ?_
  intro f' v hf hv hp
  rcases h.spells_cases hv hf hp with hd | ⟨u, rfl, hu, hr⟩
  · have := length_le_takeWhile hp hd
    rw [List.length_append]
    omega
  · rw [hdot] at hr
    have := length_le_takeWhile (List.cons_prefix_cons.1 hr).2 hu
    simpa using this

/-! ## Marks -/

/-- The bytes of the marks that have two. -/
def markPairs : List (UInt8 × UInt8) :=
  [(byte '+', byte '+'), (byte '-', byte '-'), (byte '-', byte '>'), (byte '!', byte '='),
   (byte '=', byte '='), (byte '<', byte '='), (byte '>', byte '=')]

/-- A mark is one byte or one of the pairs. -/
theorem mem_marks_cases {b : UInt8} {v : Bytes} {k : Kind} (h : (b :: v, k) ∈ marks o) :
    v = [] ∨ ∃ x, v = [x] ∧ (b, x) ∈ markPairs := by
  have key : ∀ c, ∀ m ∈ marks { colonPercent := c }, m.1.tail = [] ∨
      m.1.tail = [m.1.getD 1 0] ∧ (m.1.headD 0, m.1.getD 1 0) ∈ markPairs := by decide
  rcases key o.colonPercent _ h with hv | ⟨hv, hm⟩
  · exact Or.inl hv
  · exact Or.inr ⟨_, hv, hm⟩

/-- The two bytes start a comment, a header or a mark of two bytes. -/
def Pairs (b x : UInt8) : Prop :=
  (b, x) ∈ markPairs ∨ (b = byte '/' ∧ (x = byte '/' ∨ x = byte '*')) ∨ (b = byte '<' ∧ letter x)

instance (b x : UInt8) : Decidable (Pairs b x) := inferInstanceAs (Decidable (_ ∨ _))

/-- The bytes that a second one can change. -/
def pairLeads : Bytes :=
  [byte '/', byte '<', byte '+', byte '-', byte '!', byte '=', byte '>']

theorem Pairs.mem_pairLeads {b x : UInt8} (h : Pairs b x) : b ∈ pairLeads := by
  rcases h with h | ⟨rfl, -⟩ | ⟨rfl, -⟩
  · have key : markPairs.all fun m => pairLeads.contains m.1 := by decide
    exact List.contains_iff_mem.1 (List.all_eq_true.1 key _ h)
  · decide
  · decide

/-- A lexeme of more than one byte that starts like a mark. -/
theorem Spells.pairs {f : Form} {b x : UInt8} {v : Bytes} (h : Spells o f (b :: x :: v))
    (hf : f.opening = .mark) : Pairs b x := by
  generalize hs : b :: x :: v = t at h
  cases h with
  | mark hm =>
    subst hs
    rcases mem_marks_cases hm with hv | ⟨y, hv, hm⟩
    · cases hv
    · obtain ⟨rfl, -⟩ := List.cons.inj hv
      exact Or.inl hm
  | lineComment =>
    obtain ⟨rfl, hs'⟩ := List.cons.inj hs
    exact Or.inr (Or.inl ⟨rfl, Or.inl (List.cons.inj hs').1⟩)
  | blockComment | blockCommentClosed =>
    obtain ⟨rfl, hs'⟩ := List.cons.inj hs
    exact Or.inr (Or.inl ⟨rfl, Or.inr (List.cons.inj hs').1⟩)
  | header hx =>
    obtain ⟨rfl, hs'⟩ := List.cons.inj hs
    exact Or.inr (Or.inr ⟨rfl, (List.cons.inj hs').1 ▸ hx⟩)
  | _ => cases hf

theorem longest_mark_one {b : UInt8} {k : Kind} {s : Bytes} (hm : ([b], k) ∈ marks o)
    (hs : ∀ x, s.head? = some x → ¬ Pairs b x) : LongestSpelling o (b :: s) (.mark k) [b] := by
  refine .of_opening (.mark hm) List.nil_prefix ?_
  intro f' v hf hv hp
  cases v with
  | nil => exact Nat.le_refl _
  | cons x u =>
    obtain ⟨r, rfl⟩ := hp
    exact absurd (hv.pairs hf) (hs x rfl)

/-- Nothing longer starts like a mark of two bytes. -/
theorem longest_mark_two {b x : UInt8} {k : Kind} (hm : ([b, x], k) ∈ marks o) (s : Bytes) :
    LongestSpelling o (b :: x :: s) (.mark k) [b, x] := by
  have key : ∀ c, ∀ m ∈ marks { colonPercent := c }, m.1.length = 2 →
      m.1.headD 0 ≠ byte '/' ∧ letter (m.1.getD 1 0) = false := by decide
  obtain ⟨hb, hx⟩ : b ≠ byte '/' ∧ letter x = false := key o.colonPercent _ hm rfl
  refine .of_opening (.mark hm) (List.cons_prefix_cons.2 ⟨rfl, List.nil_prefix⟩) ?_
  intro f' v hf hv hp
  rcases List.prefix_cons_iff.1 hp with rfl | ⟨u, rfl, -⟩
  · exact Nat.zero_le _
  · generalize hs : b :: x :: u = t at hv
    cases hv with
    | mark hm' =>
      subst hs
      rcases mem_marks_cases hm' with hv | ⟨y, hv, -⟩
      · cases hv
      · rw [hv]
        exact Nat.le_refl _
    | lineComment | blockComment | blockCommentClosed => exact absurd (List.cons.inj hs).1 hb
    | header hx' =>
      rw [← (List.cons.inj (List.cons.inj hs).2).1, hx] at hx'
      cases hx'
    | _ => cases hf

/-! ## Unknown units -/

/-- Where nothing known starts, the lexeme is the unit there. -/
theorem longest_unknown {b : UInt8} (hb : lead o b = false) (s : Bytes) :
    LongestSpelling o (b :: s) .unknown (Utf8.decode b s).bytes := by
  obtain ⟨more, hbytes, hmore⟩ := Utf8.bytes_decode b s
  have hspells : Spells o .unknown (Utf8.decode b s).bytes := by
    by_cases hlow : b.toNat < 0x80
    · rw [Utf8.decode_ascii hlow, Rune.bytes, Utf8.encode_ofNat_one hlow]
      exact .unknownByte hb
    · have hc := Utf8.high_toChar_decode (Nat.le_of_not_lt hlow) s
      cases hd : Utf8.decode b s with
      | char c =>
        rw [hd] at hc
        exact .unknownChar hc
      | stray y =>
        rw [hd] at hbytes
        rw [Rune.bytes, (List.cons.inj hbytes).1]
        exact .unknownByte hb
  refine ⟨hspells, ?_, fun f' u hu hp => ?_⟩
  · rw [hbytes]
    exact List.cons_prefix_cons.2 ⟨rfl, hmore⟩
  · obtain ⟨x, v, rfl⟩ := List.exists_cons_of_ne_nil hu.ne_nil
    obtain rfl : x = b := (List.cons_prefix_cons.1 hp).1
    have hf : f'.opening = .other := hu.opening_eq.symm.trans (opening_of_not_lead hb)
    cases f' <;> cases hf
    generalize hs : x :: v = t at hu hp
    cases hu with
    | unknownByte =>
      rw [hbytes]
      simp
    | unknownChar =>
      rw [Utf8.decode_eq_of_prefix hp]
      exact Nat.le_refl _

end Grammar
end Lexis
