/-!
# Byte offsets

Positions in a text are counted in bytes of its UTF-8 form.
-/

namespace Subdomain

/-- The number of bytes that a text takes. -/
def byteLength : List Char → Nat
  | [] => 0
  | c :: cs => c.utf8Size + byteLength cs

/-- The text from byte `n` on. -/
def dropBytes : Nat → List Char → List Char
  | _, [] => []
  | n, c :: cs => if n = 0 then c :: cs else dropBytes (n - c.utf8Size) cs

/-- The first `n` bytes of a text. -/
def takeBytes : Nat → List Char → List Char
  | _, [] => []
  | n, c :: cs => if n = 0 then [] else c :: takeBytes (n - c.utf8Size) cs

/-- The text from byte `start` up to byte `stop`. -/
def sliceBytes (start stop : Nat) (text : List Char) : List Char :=
  takeBytes (stop - start) (dropBytes start text)

@[simp] theorem byteLength_append {s t : List Char} :
    byteLength (s ++ t) = byteLength s + byteLength t := by
  induction s with
  | nil => simp [byteLength]
  | cons c s ih => simp [byteLength, ih]; omega

@[simp] theorem dropBytes_zero {t : List Char} : dropBytes 0 t = t := by
  cases t <;> simp [dropBytes]

@[simp] theorem takeBytes_zero {t : List Char} : takeBytes 0 t = [] := by
  cases t <;> simp [takeBytes]

theorem dropBytes_byteLength {s t : List Char} : dropBytes (byteLength s) (s ++ t) = t := by
  induction s with
  | nil => simp [byteLength]
  | cons c s ih =>
    have := c.utf8Size_pos
    rw [List.cons_append, dropBytes, if_neg (by simp [byteLength]; omega)]
    rw [show byteLength (c :: s) - c.utf8Size = byteLength s by simp [byteLength], ih]

theorem takeBytes_byteLength {s t : List Char} : takeBytes (byteLength s) (s ++ t) = s := by
  induction s with
  | nil => simp [byteLength]
  | cons c s ih =>
    have := c.utf8Size_pos
    rw [List.cons_append, takeBytes, if_neg (by simp [byteLength]; omega)]
    rw [show byteLength (c :: s) - c.utf8Size = byteLength s by simp [byteLength], ih]

/-- Cutting out a middle part by its bytes gives that part. -/
theorem sliceBytes_append {s m t : List Char} :
    sliceBytes (byteLength s) (byteLength s + byteLength m) (s ++ m ++ t) = m := by
  rw [sliceBytes, List.append_assoc, dropBytes_byteLength, Nat.add_sub_cancel_left,
    takeBytes_byteLength]

end Subdomain
