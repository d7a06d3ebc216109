import Lexis.Report.Json
import Lexis.Proofs.Text.Agreement
import Lexis.Proofs.Text.Quoting

/-!
# The parts of a JSON document

Each part of a document shows where it ends: a string at its closing quote, a number where its
digits end, an array and an object at the bracket behind their last item. So what follows a part can
be told from it, and a document can be read from the left (`Json.Delimited`).

* `Json.delimited_string`: valid texts; others may be written alike.
* `signedDecimal_append_inj`: numbers.
* `Json.Delimited.array`, `Json.Delimited.optional`: the items of an array, and a member that is left
  out when it is empty.
* `Json.object_cons`, `Json.members_cons`: an object, member by member.
* `valid_quote`: a quoted text can be written as a string itself.
-/
namespace Lexis

/-! ## Strings -/

namespace Json

/-- What `w` writes of values with `P` tells them, and shows where it ends. -/
def Delimited {α : Type} (P : α → Prop) (w : α → Bytes) : Prop :=
  ∀ ⦃a b : α⦄ ⦃u v : Bytes⦄, P a → P b → w a ++ u = w b ++ v → a = b ∧ u = v

/-- The escapes of a string are among those that a quoted text may have. -/
theorem undone_escapeChar (c : Char) : Undone escapeRune (.char c) := by
  intro u
  change unquoteFrom 0 (escapeChar c ++ u) = (unquoteFrom 0 u).map (Utf8.encode c ++ ·)
  unfold escapeChar
  split
  · next hc =>
    have hletter : escapeLetter? (byte c) = some (byte c) ∧ Utf8.encode c = [byte c] := by
      rcases hc with rfl | rfl <;> decide
    exact unquoteFrom_letter hletter.1 hletter.2 u
  · next hc =>
    rw [not_or] at hc
    split
    · next hn =>
      subst hn
      exact unquoteFrom_letter (by decide) (by decide) u
    · next hn =>
      split
      · next hr =>
        subst hr
        exact unquoteFrom_letter (by decide) (by decide) u
      · split
        · next ht =>
          subst ht
          exact unquoteFrom_letter (by decide) (by decide) u
        · split
          · next hshort =>
            exact unquoteFrom_escape (e := byte 'u' :: hex 4 c.toNat)
              (readEscape?_short (by omega) u)
          · exact unquoteFrom_encode hc.1 hc.2 hn u

theorem undone_of_valid {s : Bytes} (h : Utf8.valid s) :
    ∀ r ∈ Utf8.runes s, Undone escapeRune r := by
  obtain ⟨cs, hcs⟩ := Utf8.exists_runes_of_valid h
  intro r hr
  rw [hcs] at hr
  obtain ⟨c, -, rfl⟩ := List.mem_map.1 hr
  exact undone_escapeChar c

theorem delimited_string : Delimited (fun s => Utf8.valid s) string := by
  intro s t u v hs ht h
  exact quoteWith_append_inj (undone_of_valid hs) (undone_of_valid ht) h

end Json

/-! ## Numbers -/

/-- Whether a byte belongs to a number that has no fraction. -/
def inNumber (b : UInt8) : Bool := b = byte '-' || (byte '0' ≤ b && b ≤ byte '9')

/-- A run of bytes of a class ends where the next byte is of another one. -/
theorem append_inj_of_all {p : UInt8 → Bool} {s t u v : Bytes} (hs : s.all p) (ht : t.all p)
    (hu : u.head?.any p = false) (hv : v.head?.any p = false) (h : s ++ u = t ++ v) :
    s = t ∧ u = v := by
  have key : ∀ {s u : Bytes}, s.all p → u.head?.any p = false → (s ++ u).takeWhile p = s := by
    intro s u hs hu
    rw [List.takeWhile_append_of_pos (List.all_eq_true.1 hs)]
    cases u with
    | nil => simp
    | cons b u =>
      rw [List.head?_cons, Option.any_some] at hu
      rw [List.takeWhile_cons_of_neg (by simp [hu]), List.append_nil]
  have hst : s = t := by rw [← key hs hu, h, key ht hv]
  subst hst
  exact ⟨rfl, List.append_cancel_left h⟩

theorem all_inNumber (n : Int) : (signedDecimal n).all inNumber := by
  rw [List.all_eq_true]
  intro b hb
  simpa [inNumber] using mem_signedDecimal hb

/-- A number tells its value, and ends where its digits do. -/
theorem signedDecimal_append_inj {m n : Int} {u v : Bytes} (hu : u.head?.any inNumber = false)
    (hv : v.head?.any inNumber = false) (h : signedDecimal m ++ u = signedDecimal n ++ v) :
    m = n ∧ u = v := by
  obtain ⟨hmn, huv⟩ := append_inj_of_all (all_inNumber m) (all_inNumber n) hu hv h
  exact ⟨signedDecimal_inj hmn, huv⟩

/-! ## Items and members -/

namespace Json

/-- What follows an item: the other ones and the closing bracket. -/
def more (closing : Char) (depth : Nat) : List Bytes → Bytes
  | [] => newline depth ++ [byte closing]
  | item :: items => byte ',' :: (newline (depth + 1) ++ (item ++ more closing depth items))

theorem joinWith_cons (sep x : Bytes) (xs : List Bytes) :
    joinWith sep (x :: xs) = x ++ (xs.flatMap fun y => sep ++ y) := by
  induction xs generalizing x with
  | nil => simp [joinWith]
  | cons y ys ih =>
    have hcons : joinWith sep (x :: y :: ys) = x ++ (sep ++ joinWith sep (y :: ys)) := by
      simp [joinWith]
    rw [hcons, ih, List.flatMap_cons, List.append_assoc]

theorem more_eq (closing : Char) (depth : Nat) (items : List Bytes) :
    more closing depth items =
      (items.flatMap fun item => ascii "," ++ (newline (depth + 1) ++ item)) ++
        (newline depth ++ [byte closing]) := by
  induction items with
  | nil => rfl
  | cons item items ih =>
    rw [more, ih, List.flatMap_cons]
    simp [ascii]

theorem block_cons (opening closing : Char) (depth : Nat) (item : Bytes) (items : List Bytes) :
    block opening closing depth (item :: items) =
      byte opening :: (newline (depth + 1) ++ (item ++ more closing depth items)) := by
  rw [block, List.map_cons, joinWith_cons, more_eq, List.flatMap_map]
  simp

section Items

variable {α : Type} {P : α → Prop} {w : α → Bytes} {depth : Nat} {as bs : List α} {u v : Bytes}

/-- If each item shows where it ends, so do all of them. -/
theorem more_append_inj {closing : Char} (hw : Delimited P w) (has : ∀ a ∈ as, P a)
    (hbs : ∀ b ∈ bs, P b)
    (h : more closing depth (as.map w) ++ u = more closing depth (bs.map w) ++ v) :
    as = bs ∧ u = v := by
  have hcomma : byte '\n' ≠ byte ',' := by decide
  induction as generalizing bs with
  | nil =>
    cases bs with
    | nil => exact ⟨rfl, List.append_cancel_left h⟩
    | cons b bs => exact absurd (List.cons.inj h).1 hcomma
  | cons a as ih =>
    cases bs with
    | nil => exact absurd (List.cons.inj h).1.symm hcomma
    | cons b bs =>
      simp only [List.map_cons, more, List.cons_append, List.append_assoc] at h
      have hitems := List.append_cancel_left (List.cons.inj h).2
      obtain ⟨rfl, hrest⟩ := hw (has a (by simp)) (hbs b (by simp)) hitems
      obtain ⟨rfl, huv⟩ := ih (fun a' ha' => has a' (by simp [ha']))
        (fun b' hb' => hbs b' (by simp [hb'])) hrest
      exact ⟨rfl, huv⟩

/-- An array is told from the empty one by its second byte. -/
theorem exists_array_cons (depth : Nat) (item : Bytes) (items : List Bytes) :
    ∃ s, array depth (item :: items) = byte '[' :: byte '\n' :: s ∧
      more ']' depth (item :: items) = byte ',' :: byte '\n' :: s := by
  rw [array, if_neg (List.cons_ne_nil _ _), block_cons, more, newline]
  exact ⟨_, rfl, rfl⟩

theorem Delimited.array (hw : Delimited P w) (depth : Nat) :
    Delimited (fun as : List α => ∀ a ∈ as, P a) fun as => array depth (as.map w) := by
  have hempty : byte ']' ≠ byte '\n' := by decide
  intro as bs u v has hbs h
  cases as with
  | nil =>
    cases bs with
    | nil => exact ⟨rfl, List.append_cancel_left h⟩
    | cons b bs =>
      obtain ⟨t, ht, -⟩ := exists_array_cons depth (w b) (bs.map w)
      dsimp only at h
      rw [List.map_cons, ht] at h
      exact absurd (List.cons.inj (List.cons.inj h).2).1 hempty
  | cons a as =>
    obtain ⟨s, hs, hs'⟩ := exists_array_cons depth (w a) (as.map w)
    cases bs with
    | nil =>
      dsimp only at h
      rw [List.map_cons, hs] at h
      exact absurd (List.cons.inj (List.cons.inj h).2).1.symm hempty
    | cons b bs =>
      obtain ⟨t, ht, ht'⟩ := exists_array_cons depth (w b) (bs.map w)
      dsimp only at h
      rw [List.map_cons, List.map_cons, hs, ht] at h
      have hmore : more ']' depth ((a :: as).map w) ++ u = more ']' depth ((b :: bs).map w) ++ v := by
        rw [List.map_cons, List.map_cons, hs', ht']
        exact congrArg (byte ',' :: ·) (List.cons.inj h).2
      exact more_append_inj hw has hbs hmore

end Items

/-- A member of an object without its value. -/
def key (name : String) : Bytes := string (ascii name) ++ ascii ": "

/-- What stands between the values of two members. -/
def next (depth : Nat) (name : String) : Bytes := byte ',' :: (newline (depth + 1) ++ key name)

/-- What follows the value of a member: the other ones and the closing brace. -/
def members (depth : Nat) (fields : List (String × Bytes)) : Bytes :=
  more '\x7d' depth (fields.map fun field => key field.1 ++ field.2)

theorem members_cons (depth : Nat) (name : String) (value : Bytes)
    (fields : List (String × Bytes)) : members depth ((name, value) :: fields) =
      next depth name ++ (value ++ members depth fields) := by
  simp [members, more, next]

theorem object_cons (depth : Nat) (name : String) (value : Bytes)
    (fields : List (String × Bytes)) : object depth ((name, value) :: fields) =
      byte '\x7b' :: (newline (depth + 1) ++ (key name ++ (value ++ members depth fields))) := by
  rw [object, List.map_cons, block_cons, members]
  simp [key]

/-- No number goes on behind its member. -/
theorem head?_members (depth : Nat) (fields : List (String × Bytes)) (u : Bytes) :
    (members depth fields ++ u).head?.any inNumber = false := by
  cases fields with
  | nil => rfl
  | cons field fields => rfl

/-- A member that is left out for `empty` can be told from one that is not. -/
theorem Delimited.optional {α : Type} [DecidableEq α] {P : α → Prop} {w : α → Bytes}
    (hw : Delimited P w) (empty : α) (depth : Nat) (name : String) :
    Delimited P fun a => members depth (if a = empty then [] else [(name, w a)]) := by
  have hcomma : byte '\n' ≠ byte ',' := by decide
  intro a b u v ha hb h
  dsimp only at h
  by_cases ha' : a = empty
  · by_cases hb' : b = empty
    · rw [if_pos ha', if_pos hb'] at h
      exact ⟨ha'.trans hb'.symm, List.append_cancel_left h⟩
    · rw [if_pos ha', if_neg hb'] at h
      exact absurd (List.cons.inj h).1 hcomma
  · by_cases hb' : b = empty
    · rw [if_neg ha', if_pos hb'] at h
      exact absurd (List.cons.inj h).1.symm hcomma
    · rw [if_neg ha', if_neg hb', members_cons, members_cons, List.append_assoc, List.append_assoc,
        List.append_assoc, List.append_assoc] at h
      obtain ⟨hab, h⟩ := hw ha hb (List.append_cancel_left h)
      exact ⟨hab, List.append_cancel_left h⟩

end Json

/-! ## Quoted texts are valid -/

theorem valid_of_ascii {s : Bytes} (h : ∀ b ∈ s, b.toNat < 0x80) : Utf8.valid s := by
  induction s with
  | nil => rfl
  | cons b s ih =>
    rw [Utf8.valid_cons_ascii (h b (by simp))]
    exact ih fun x hx => h x (by simp [hx])

theorem valid_signedDecimal (n : Int) : Utf8.valid (signedDecimal n) := by
  have key : ∀ b, b = byte '-' ∨ byte '0' ≤ b ∧ b ≤ byte '9' → b.toNat < 0x80 :=
    Grammar.forall_byte (by decide +kernel)
  exact valid_of_ascii fun b hb => key b (mem_signedDecimal hb)

theorem valid_hex (width n : Nat) : Utf8.valid (hex width n) := by
  have key : ∀ d < 16, (byte (Nat.digitChar d)).toNat < 0x80 := by decide
  apply valid_of_ascii
  intro b hb
  rcases List.mem_append.1 hb with hb | hb
  · rw [List.eq_of_mem_replicate hb]
    decide
  · obtain ⟨d, hd, rfl⟩ := mem_digits (by decide) hb
    exact key d hd

theorem valid_encode (c : Char) : Utf8.valid (Utf8.encode c) := by
  have h := Utf8.valid_encode_append c []
  rw [List.append_nil] at h
  rw [h]
  rfl

theorem valid_escapeRune (r : Rune) : Utf8.valid (escapeRune r) := by
  have key : ∀ l, (escapeLetter? l).isSome → l.toNat < 0x80 :=
    Grammar.forall_byte (by decide +kernel)
  cases r with
  | stray b => exact Utf8.valid_append (by decide) (valid_hex 2 _)
  | char c =>
    unfold escapeRune escapeChar
    dsimp only
    split
    · next hc => rcases hc with rfl | rfl <;> decide
    · split
      · exact valid_encode c
      · split
        · next l hl =>
          have hlow := key (byte l) (by rw [(controlLetter?_eq_some hl).1]; rfl)
          rw [Utf8.valid_cons_ascii (by decide), Utf8.valid_cons_ascii hlow]
          rfl
        · split
          · exact Utf8.valid_append (by decide) (valid_hex 2 _)
          · split
            · exact Utf8.valid_append (by decide) (valid_hex 4 _)
            · exact Utf8.valid_append (by decide) (valid_hex 8 _)

/-- A quoted text is valid, stray bytes or not. -/
theorem valid_quote (s : Bytes) : Utf8.valid (quote s) := by
  have hbody : ∀ rs : List Rune, Utf8.valid (rs.flatMap escapeRune) := by
    intro rs
    induction rs with
    | nil => rfl
    | cons r rs ih =>
      rw [List.flatMap_cons]
      exact Utf8.valid_append (valid_escapeRune r) ih
  rw [quote, ← List.singleton_append]
  exact Utf8.valid_append (Utf8.valid_append (by decide) (hbody _)) (by decide)

end Lexis
