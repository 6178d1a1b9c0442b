import Mathlib.Data.List.Basic

/-!
Formatted output into a block of memory, as `snprintf` does it: as much of the text as the
given size allows and a null behind it, and nothing for size zero. The result is always the
length of the whole text. A store outside the block has no result.
-/
namespace OutputBuffer

def store (block : List Char) (offset : Nat) (bytes : List Char) : List Char :=
  block.take offset ++ bytes ++ block.drop (offset + bytes.length)

def stored (size : Int) (text : List Char) : List Char := text.take (size - 1).toNat ++ ['\x00']

/-- The block afterwards, and the length of the text. A size that is negative as an `int` is
    refused with length zero. -/
def snprintf (buf : Option (List Char)) (offset size : Int) (text : List Char) :
    Option (Option (List Char) × Int) :=
  if size < 0 then some (buf, 0)
  else if size = 0 then some (buf, text.length)
  else match buf with
  | none => none
  | some block =>
    if 0 ≤ offset ∧ offset + (stored size text).length ≤ block.length then
      some (some (store block offset.toNat (stored size text)), text.length)
    else none

theorem snprintf_counts (buf : Option (List Char)) (offset : Int) (text : List Char) :
    snprintf buf offset 0 text = some (buf, (text.length : Int)) := by
  simp [snprintf]

theorem snprintf_fits {front back text : List Char} (size : Int) (room : text.length < size)
    (inside : text.length < back.length) :
    snprintf (some (front ++ back)) front.length size text =
      some (some (front ++ text ++ '\x00' :: back.drop (text.length + 1)), (text.length : Int)) := by
  have whole : stored size text = text ++ ['\x00'] := by
    rw [stored, List.take_of_length_le (by omega)]
  have fits : (0 : Int) ≤ front.length ∧
      (front.length : Int) + (stored size text).length ≤ (front ++ back).length := by
    rw [whole, List.length_append, List.length_append, List.length_singleton]
    omega
  have kept : (front ++ back).take front.length = front := by simp
  have rest : (front ++ back).drop (front.length + (text.length + 1)) = back.drop (text.length + 1) := by
    rw [List.drop_append]
    simp
  unfold snprintf
  rw [if_neg (by omega), if_neg (by omega)]
  dsimp only
  rw [if_pos fits, store, whole, Int.toNat_natCast, kept, List.length_append, List.length_singleton, rest]
  simp

end OutputBuffer
