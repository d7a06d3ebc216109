import Lexis.Text.Utf8

/-!
# Cursors

A cursor stands between two characters of a text: what lies ahead, how many bytes lie behind, and
the number of the current line. It moves forward only, one character at a time; a stray byte is one
character U+FFFD of one byte. Looking at the next character and reading it are two functions, and
each of them knows ASCII on its own.

* `length_rest_advance_lt`: a step takes at least one byte unless the cursor is at the end.
* `length_rest_advanceWhile_le`: a run of steps never adds any.
-/
namespace Lexis

structure Cursor where
  rest : Bytes
  offset : Nat
  line : Nat
  deriving DecidableEq, Repr

namespace Cursor

/-- The cursor before the first character of a text, on line 1 (`newCursor`). -/
def start (source : Bytes) : Cursor := ⟨source, 0, 1⟩

def atEnd (c : Cursor) : Bool := c.rest.isEmpty

/-- The next character, if there is one. A byte below `0x80` is a character by itself and is not
decoded. -/
def peek (c : Cursor) : Option Char :=
  match c.rest with
  | [] => none
  | b :: rest =>
    if b < 0x80 then some (Char.ofNat b.toNat) else some (Utf8.decode b rest).toChar

/-- The next character, if there is one, and the cursor behind it; at the end the cursor stays. Here
too a byte below `0x80` is not decoded. This is the whole of `advance`, which returns what it
consumes. -/
def read (c : Cursor) : Option Char × Cursor :=
  match c.rest with
  | [] => (none, c)
  | b :: rest =>
    let (ch, width) :=
      if b < 0x80 then (Char.ofNat b.toNat, 1)
      else ((Utf8.decode b rest).toChar, (Utf8.decode b rest).width)
    (some ch,
      { rest := rest.drop (width - 1)
        offset := c.offset + width
        line := if ch = '\n' then c.line + 1 else c.line })

/-- The cursor behind the next character; at the end it stays. For callers of `advance` who do not
look at the character. -/
def advance (c : Cursor) : Cursor := c.read.2

theorem peek_eq_none_iff {c : Cursor} : c.peek = none ↔ c.rest = [] := by
  unfold peek
  split
  · simp_all
  · next h => split <;> simp [h]

/-- Looking and reading see the same character, although each of them decodes for itself. -/
theorem read_eq (c : Cursor) : c.read = (c.peek, c.advance) := by
  have hfst : c.read.1 = c.peek := by
    unfold read peek
    split
    · rfl
    · next b rest _ => by_cases hb : b < 0x80 <;> simp [hb]
  rw [advance, ← hfst]

theorem read_eq_iff {c d : Cursor} {ch : Option Char} :
    c.read = (ch, d) ↔ c.peek = ch ∧ c.advance = d := by
  rw [read_eq, Prod.mk.injEq]

theorem read_of_end {c : Cursor} (h : c.rest = []) : c.read = (none, c) := by
  unfold read
  rw [h]

theorem advance_of_end {c : Cursor} (h : c.rest = []) : c.advance = c := by
  rw [advance, read_of_end h]

theorem length_rest_advance_le (c : Cursor) : c.advance.rest.length ≤ c.rest.length := by
  unfold advance read
  split
  · exact Nat.le_refl _
  · next h => simp only [h, List.length_drop, List.length_cons]; omega

theorem length_rest_advance_lt {c : Cursor} {ch : Char} (h : c.peek = some ch) :
    c.advance.rest.length < c.rest.length := by
  unfold advance read
  split
  · next hr => simp [peek_eq_none_iff.2 hr] at h
  · next hr => simp only [hr, List.length_drop, List.length_cons]; omega

theorem length_rest_read_lt {c d : Cursor} {ch : Char} (h : c.read = (some ch, d)) :
    d.rest.length < c.rest.length := by
  obtain ⟨hp, rfl⟩ := read_eq_iff.1 h
  exact length_rest_advance_lt hp

/-- The cursor at the first character from here on that fails `p`, or at the end. -/
def advanceWhile (p : Char → Bool) (c : Cursor) : Cursor :=
  match _h : c.peek with
  | none => c
  | some ch => if p ch then advanceWhile p c.advance else c
termination_by c.rest.length
decreasing_by exact length_rest_advance_lt _h

theorem length_rest_advanceWhile_le (p : Char → Bool) (c : Cursor) :
    (c.advanceWhile p).rest.length ≤ c.rest.length := by
  fun_induction advanceWhile p c with
  | case1 => exact Nat.le_refl _
  | case2 c ch h hp ih => exact Nat.le_trans ih (length_rest_advance_le c)
  | case3 => exact Nat.le_refl _

/-- The bytes between a cursor and a later one of the same text. -/
def textTo (c stop : Cursor) : Bytes := c.rest.take (stop.offset - c.offset)

end Cursor
end Lexis
