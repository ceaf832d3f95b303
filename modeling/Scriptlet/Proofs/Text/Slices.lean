import Scriptlet.Text.Source
import Mathlib.Data.List.Basic
import Mathlib.Algebra.BigOperators.Group.List.Basic
import Mathlib.Algebra.GroupWithZero.Nat

/-!
# Slices between positions

The index of a position that is walked to is the number of bytes before it.
So the slice between two positions of a text is what is walked over between
them.
-/

set_option autoImplicit false

namespace Scriptlet

namespace Text

/-- How many bytes a text takes. -/
def bytes (cs : List Char) : Nat := (cs.map Char.utf8Size).sum

@[simp] theorem bytes_nil : bytes [] = 0 := rfl

@[simp] theorem bytes_cons (c : Char) (cs : List Char) :
    bytes (c :: cs) = c.utf8Size + bytes cs := by
  simp [bytes]

@[simp] theorem bytes_append (cs ds : List Char) : bytes (cs ++ ds) = bytes cs + bytes ds := by
  simp [bytes]

theorem bytes_pos {cs : List Char} (h : cs ≠ []) : 0 < bytes cs := by
  cases cs with
  | nil => exact absurd rfl h
  | cons c cs =>
    have := c.utf8Size_pos
    simp only [bytes_cons]
    omega

theorem utf8ByteSize_eq (s : String) : s.utf8ByteSize = bytes s.toList := by
  have hsize (cs : List Char) : (String.ofList cs).utf8ByteSize = bytes cs := by
    induction cs with
    | nil => rfl
    | cons c cs ih =>
      have hcons : String.ofList (c :: cs) = String.singleton c ++ String.ofList cs := by
        simp
      rw [hcons, String.utf8ByteSize_append, String.utf8ByteSize_singleton, ih, bytes_cons]
  rw [← hsize, String.ofList_toList]

theorem dropBytes_append (cs ds : List Char) : dropBytes (bytes cs) (cs ++ ds) = ds := by
  induction cs with
  | nil => simp [dropBytes]
  | cons c cs ih =>
    have hpos := c.utf8Size_pos
    obtain ⟨n, hn⟩ : ∃ n, bytes (c :: cs) = n + 1 := ⟨bytes (c :: cs) - 1, by simp; omega⟩
    have hrest : n + 1 - c.utf8Size = bytes cs := by
      rw [bytes_cons] at hn
      omega
    rw [hn, List.cons_append, dropBytes, hrest, ih]

theorem takeBytes_append (cs ds : List Char) : takeBytes (bytes cs) (cs ++ ds) = cs := by
  induction cs with
  | nil => simp [takeBytes]
  | cons c cs ih =>
    have hpos := c.utf8Size_pos
    obtain ⟨n, hn⟩ : ∃ n, bytes (c :: cs) = n + 1 := ⟨bytes (c :: cs) - 1, by simp; omega⟩
    have hrest : n + 1 - c.utf8Size = bytes cs := by
      rw [bytes_cons] at hn
      omega
    rw [hn, List.cons_append, takeBytes, hrest, ih]

end Text

open Text (bytes)

namespace Position

theorem walk_index (p : Position) (cs : List Char) : (p.walk cs).index = p.index + bytes cs := by
  induction cs generalizing p with
  | nil => rfl
  | cons c cs ih =>
    have hone : (p.advance c).index = p.index + c.utf8Size := by
      unfold advance
      split <;> rfl
    rw [walk_cons, ih, hone, Text.bytes_cons, Nat.add_assoc]

end Position

/-- What is walked over between the ends of a span is the slice under it. -/
theorem Source.slice_eq {s : Source} {front body tail : List Char} {span : Span}
    (h : s.text.toList = front ++ (body ++ tail)) (hstart : span.start.index = bytes front)
    (hstop : span.stop.index = bytes front + bytes body) : s.slice span = String.ofList body := by
  have hsize : s.text.utf8ByteSize = bytes front + (bytes body + bytes tail) := by
    rw [Text.utf8ByteSize_eq, h, Text.bytes_append, Text.bytes_append]
  have hmin : min span.stop.index s.text.utf8ByteSize = bytes front + bytes body := by omega
  have hmin' : min span.start.index (bytes front + bytes body) = bytes front := by omega
  have hdiff : bytes front + bytes body - bytes front = bytes body := by omega
  simp only [Source.slice, hmin, hmin', hdiff]
  rw [h, Text.dropBytes_append, Text.takeBytes_append]

end Scriptlet
