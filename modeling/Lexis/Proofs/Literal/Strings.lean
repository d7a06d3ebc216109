import Lexis.Proofs.Scan.Alone

/-!
# String literals

A string is an opening quote, a text without quotes, and a closing quote unless the source ends
before it. The scan looks for the closing quote from a cursor, and the value is cut out of the
lexeme once more; both agree, since a lexeme has no quote but these two.

* `Spells.str_cases`: the two ways to write a string, with its value.
* `Recognises.encloses`, `encloses_steps`: each string of a run carries the text between its quotes.
* `head?_steps_enclosed`: a text between quotes is scanned as that string, whatever follows.
-/
namespace Lexis

open Grammar Cursor

variable {o : Options} {c d : Cursor} {x : Lexeme} {t v source : Bytes}

/-! ## The lexeme and its value -/

/-- A text between two quotes. -/
def enclosed (v : Bytes) : Bytes := byte '"' :: (v ++ [byte '"'])

theorem stringBody_eq_self (h : byte '"' ∉ v) : Literal.stringBody v = v := by
  unfold Literal.stringBody
  rw [if_neg]
  intro hlast
  exact h (List.mem_of_getLast? hlast)

theorem stringBody_concat (v : Bytes) : Literal.stringBody (v ++ [byte '"']) = v := by
  simp [Literal.stringBody]

theorem decode_enclosed (h : byte '"' ∉ v) :
    Literal.str.decode (enclosed v) = .ok (.string v, none) := by
  have hdecode := (Spells.strClosed (o := {}) h).decode_str
  rwa [List.drop_one, List.tail_cons, stringBody_concat] at hdecode

theorem missing_enclosed (v rest : Bytes) : Form.str.missing (enclosed v) rest = none := by
  have hquote : byte '"' ∈ v ++ [byte '"'] := by simp
  exact if_pos hquote

/-- A string is closed or lacks its closing quote; its value is the rest of it. -/
theorem Grammar.Spells.str_cases (h : Spells o .str t) :
    ∃ v, byte '"' ∉ v ∧ Literal.str.decode t = .ok (.string v, none) ∧
      ((t = enclosed v ∧ ∀ rest, Form.str.missing t rest = none) ∨
        (t = byte '"' :: v ∧ ∀ rest, Form.str.missing t rest = some .unterminatedString)) := by
  have hdecode := h.decode_str
  cases h with
  | @str v hv =>
    rw [List.drop_one, List.tail_cons, stringBody_eq_self hv] at hdecode
    exact ⟨v, hv, hdecode, .inr ⟨rfl, fun _ => if_neg hv⟩⟩
  | @strClosed v hv => exact ⟨v, hv, decode_enclosed hv, .inl ⟨rfl, missing_enclosed v⟩⟩

/-- Of the literals, strings are those of the class of strings. -/
theorem Grammar.Spells.eq_str {f : Form} (h : Spells o f t) (hk : f.kind = .literal)
    (hc : f.literal.category = .str) : f = .str := by
  rcases h.literal_cases hk with rfl | hf
  · rfl
  · cases f with
    | str => rfl
    | decimal | float | octal | binary | hexadecimal => cases hc
    | _ => cases hf

/-! ## Steps and runs -/

/-- The step of a string with the text `v` between its quotes. -/
structure Step.Encloses (source : Bytes) (s : Step) (v : Bytes) : Prop where
  value : s.token.value = .string v
  bare : byte '"' ∉ v
  closed : (¬ ∃ g ∈ s.diagnostics, g.tag = .unterminatedString) →
    s.token.text source = .ok (enclosed v)
  unclosed : (∃ g ∈ s.diagnostics, g.tag = .unterminatedString) →
    s.token.text source = .ok (byte '"' :: v) ∧ s.token.span.stop = source.length

/-- The quote is missing from the lexeme iff that is reported of it. -/
theorem Recognises.encloses (h : Recognises o d x .str t) (hd : d.Inside source) :
    ∃ v, (Step.ofLexeme d x).Encloses source v := by
  obtain ⟨v, hv, hdecode, hcases⟩ := h.longest.spells.str_cases
  have htext := h.token_text hd
  have hstep := h.ofLexeme_value rfl hdecode
  rcases hcases with ⟨rfl, hmissing⟩ | ⟨rfl, hmissing⟩
  · have hnone : (Step.ofLexeme d x).diagnostics = [] := by
      rw [hstep, Recognises.unclosed, hmissing]
      rfl
    refine ⟨v, by rw [hstep], hv, fun _ => htext, ?_⟩
    rintro ⟨g, hg, -⟩
    rw [hnone] at hg
    cases hg
  · have hone : (Step.ofLexeme d x).diagnostics =
        [⟨.unterminatedString, .of d.offset (byte '"' :: v), d.line, none⟩] := by
      rw [hstep, Recognises.unclosed, hmissing]
      rfl
    have hend := (h.unterminated (by rw [hone]; exact List.mem_singleton.2 rfl) rfl).2.2
    refine ⟨v, by rw [hstep], hv, ?_, ?_⟩
    · rw [hone]
      exact fun hnone => absurd ⟨_, List.mem_singleton.2 rfl, rfl⟩ hnone
    · intro _
      rw [h.token_span]
      exact ⟨htext, (h.stop_eq_length_iff hd).2 hend⟩

theorem encloses_steps (hc : c.Inside source) :
    ∀ s ∈ c.steps o, s.token.kind = .literal → s.token.literal.category = .str →
      ∃ v, s.Encloses source v := by
  apply forall_mem_steps (P := fun s => s.token.kind = .literal →
    s.token.literal.category = .str → ∃ v, s.Encloses source v) _ _ hc
  · intro d _ hk
    cases hk
  · intro d x f t hd hr hk hcat
    rw [hr.token_kind] at hk
    rw [hr.token_literal] at hcat
    obtain rfl := hr.longest.spells.eq_str hk hcat
    exact hr.encloses hd

/-- A run over a text between quotes starts with that string. -/
theorem head?_steps_enclosed (hv : byte '"' ∉ v) (rest : Bytes) :
    (((start (byte '"' :: (v ++ byte '"' :: rest))).steps o).map (·.token)).head? =
      some ⟨.literal, .str, .string v, ⟨0, v.length + 2⟩⟩ := by
  let c := start (byte '"' :: (v ++ byte '"' :: rest))
  let stop : Cursor := ⟨rest, (enclosed v).length, 1 + (enclosed v).count (byte '\n')⟩
  have hskips : Skips o c [] c := by
    refine ⟨Reads.refl c, rfl, fun _ => rfl, ?_⟩
    unfold ahead
    split <;> rfl
  have hreads : c.Reads (enclosed v) stop := by
    refine ⟨?_, (Nat.zero_add _).symm, rfl⟩
    simp [c, stop, start, enclosed]
  have hr : Recognises o c { kind := .literal, literal := .str, stop } .str (enclosed v) :=
    ⟨longest_strClosed hv rest, hreads, rfl, rfl, (missing_enclosed v rest).symm⟩
  have hspan : Span.of 0 (enclosed v) = ⟨0, v.length + 2⟩ := by
    simp only [Span.of, enclosed, List.length_cons, List.length_append, List.length_nil]
    congr 1
    omega
  rw [steps_of_lexeme hskips hr, hr.ofLexeme_value rfl (decode_enclosed hv), ← hspan]
  rfl

/-- Strings carry the text between their quotes: each string of a scan is this text between two
quotes, or behind one where the source ends and that is reported; and a text without quotes is
scanned as such a string where it stands between two. -/
theorem tokenize_string (o : Options) :
    (∀ source t, t ∈ (tokenize source o).1 → t.kind = .literal → t.literal.category = .str →
      ∃ v, t.value = .string v ∧ byte '"' ∉ v ∧
        ((¬ ∃ g ∈ (tokenize source o).2, g.span = t.span ∧ g.tag = .unterminatedString) →
          t.text source = .ok (byte '"' :: (v ++ [byte '"']))) ∧
        ((∃ g ∈ (tokenize source o).2, g.span = t.span ∧ g.tag = .unterminatedString) →
          t.text source = .ok (byte '"' :: v) ∧ t.span.stop = source.length)) ∧
    ∀ v rest, byte '"' ∉ v →
      (tokenize (byte '"' :: (v ++ byte '"' :: rest)) o).1.head? =
        some ⟨.literal, .str, .string v, ⟨0, v.length + 2⟩⟩ := by
  refine ⟨?_, fun v rest hv => head?_steps_enclosed hv rest⟩
  intro source t ht hk hcat
  obtain ⟨s, hs, rfl⟩ := List.mem_map.1 ht
  obtain ⟨v, hvalue, hbare, hclosed, hunclosed⟩ := encloses_steps (inside_start source) s hs hk hcat
  obtain ⟨pre, post, hsplit⟩ := List.append_of_mem hs
  -- The reports with the span of the string are those of its own step.
  have hown : ∀ g, g ∈ s.diagnostics ↔ g ∈ (tokenize source o).2 ∧ g.span = s.token.span := by
    intro g
    rw [← filter_diagnostics_at hsplit, List.mem_filter, decide_eq_true_eq]
    rfl
  simp only [hown, and_assoc] at hclosed hunclosed
  exact ⟨v, hvalue, hbare, hclosed, hunclosed⟩

/-- A string that ends with a backslash, and a quote before a stray byte that ends the source. -/
theorem tokenize_string_backslash :
    let source := ascii "\"a\\\" \"" ++ [0xFF]
    let first : Token := ⟨.literal, .str, .string (ascii "a\\"), ⟨0, 4⟩⟩
    let last : Token := ⟨.literal, .str, .string [0xFF], ⟨5, 7⟩⟩
    first ∈ (tokenize source {}).1 ∧ last ∈ (tokenize source {}).1 ∧
      first.text source = .ok (byte '"' :: (ascii "a\\" ++ [byte '"'])) ∧
      last.text source = .ok [byte '"', 0xFF] ∧ last.span.stop = source.length ∧
      byte '"' ∉ ascii "a\\" ∧
      (tokenize (byte '"' :: (ascii "a\\" ++ byte '"' :: (ascii " \"" ++ [0xFF]))) {}).1.head? =
        some ⟨.literal, .str, .string (ascii "a\\"), ⟨0, (ascii "a\\").length + 2⟩⟩ := by
  intro source first last
  have hfirst : first ∈ (tokenize source {}).1 := by decide +kernel
  have hlast : last ∈ (tokenize source {}).1 := by decide +kernel
  have hreport : (tokenize source {}).2 = [⟨.unterminatedString, ⟨5, 7⟩, 1, none⟩] := by
    decide +kernel
  obtain ⟨hscan, hstring⟩ := tokenize_string {}
  obtain ⟨v, hv, -, hclosed, -⟩ := hscan source first hfirst rfl rfl
  obtain ⟨w, hw, -, -, hunclosed⟩ := hscan source last hlast rfl rfl
  cases hv
  cases hw
  rw [hreport] at hclosed hunclosed
  have hbare : byte '"' ∉ ascii "a\\" := by decide
  have hhead := hstring (ascii "a\\") (ascii " \"" ++ [0xFF]) hbare
  obtain ⟨htext, hstop⟩ := hunclosed (by simp [last])
  exact ⟨hfirst, hlast, hclosed (by simp [first]), htext, hstop, hbare, hhead⟩

end Lexis
