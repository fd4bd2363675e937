import Mathlib.Data.List.Infix
import Mathlib.Tactic.Ring

/-! Byte strings as they lie in memory or on a medium: fixed-width numbers in
either byte order, cut-out ranges, and padding. Nothing here knows about a
particular program; lengths and offsets are natural numbers. -/
namespace Bytes
open List

instance instLawfulBEqBytes : LawfulBEq (List UInt8) := inferInstance

def le : Nat → Nat → List UInt8
  | 0, _ => []
  | width + 1, n => UInt8.ofNat n :: le width (n / 256)

def ofLe : List UInt8 → Nat
  | [] => 0
  | b :: rest => b.toNat + 256 * ofLe rest

def be (width n : Nat) : List UInt8 := (le width n).reverse

def ofBe (bs : List UInt8) : Nat := ofLe bs.reverse

variable (width n : Nat)

@[simp] theorem le_length : (le width n).length = width := by
  induction width generalizing n with
  | zero => rfl
  | succ width ih => simp [le, ih]

@[simp] theorem be_length : (be width n).length = width := by simp [be]

theorem ofLe_le : ofLe (le width n) = n % 256 ^ width := by
  induction width generalizing n with
  | zero => simp [le, ofLe, Nat.mod_one]
  | succ width ih =>
    simp [le, ofLe, ih, Nat.pow_succ, Nat.mul_comm (256 ^ width) 256, Nat.mod_mul]

variable {width n off len pos : Nat} {bs data buf : List UInt8}

theorem ofLe_le_of_lt (h : n < 256 ^ width) : ofLe (le width n) = n := by
  rw [ofLe_le, Nat.mod_eq_of_lt h]
theorem ofBe_be_of_lt (h : n < 256 ^ width) : ofBe (be width n) = n := by
  simp [ofBe, be, ofLe_le_of_lt h]

theorem ofLe_lt (bs : List UInt8) : ofLe bs < 256 ^ bs.length := by
  induction bs with
  | nil => simp [ofLe]
  | cons b rest ih =>
    have hb : b.toNat < 256 := b.toNat_lt
    simp [ofLe]
    omega

theorem le_ofLe (bs : List UInt8) : le bs.length (ofLe bs) = bs := by
  induction bs with
  | nil => rfl
  | cons b rest ih =>
    have hb : b.toNat < 256 := b.toNat_lt
    have hDiv : (b.toNat + 256 * ofLe rest) / 256 = ofLe rest := by omega
    simp [le, ofLe, hDiv, ih]

/-- The `len` bytes from offset `off` on, fewer where the string ends. -/
def slice (off len : Nat) (bs : List UInt8) : List UInt8 := (bs.drop off).take len

theorem slice_length (off len : Nat) (bs : List UInt8) :
    (slice off len bs).length = min len (bs.length - off) := by
  simp [slice]

theorem slice_length_of_le (h : off + len ≤ bs.length) : (slice off len bs).length = len := by
  rw [slice_length]
  omega

theorem slice_append_right (front bs : List UInt8) (off len : Nat) :
    slice (front.length + off) len (front ++ bs) = slice off len bs := by simp [slice]

theorem slice_append_left (back : List UInt8)
    (h : off + len ≤ bs.length) : slice off len (bs ++ back) = slice off len bs := by
  unfold slice
  grind

@[simp] theorem slice_zero_length (bs : List UInt8) : slice 0 bs.length bs = bs := by simp [slice]

theorem slice_append_middle (front middle back : List UInt8) :
    slice front.length middle.length (front ++ (middle ++ back)) = middle := by simp [slice]

theorem take_slice (h : n ≤ len) (pos : Nat) (bytes : List UInt8) :
    (slice pos len bytes).take n = slice pos n bytes := by
  rw [slice, slice, take_take, Nat.min_eq_left h]

theorem slice_split (h : n ≤ len) (pos : Nat) (bytes : List UInt8) :
    slice pos len bytes = slice pos n bytes ++ slice (pos + n) (len - n) bytes := by
  rw [slice, slice, slice, ← drop_drop, ← take_add, Nat.add_sub_cancel' h]

theorem slice_slice (h : pos + n ≤ len) (bytes : List UInt8) :
    slice pos n (slice off len bytes) = slice (off + pos) n bytes := by
  grind [slice, drop_take, drop_drop]

/-- Store `data` at an offset of a buffer that has room for it. -/
def overwrite (off : Nat) (data buf : List UInt8) : List UInt8 :=
  buf.take off ++ (data ++ buf.drop (off + data.length))

variable (h : off + data.length ≤ buf.length)
include h

theorem overwrite_length : (overwrite off data buf).length = buf.length := by
  simp [overwrite]
  omega

theorem slice_overwrite_self : slice off data.length (overwrite off data buf) = data := by
  have hOff : (buf.take off).length = off := by
    simp
    omega
  have hMiddle := slice_append_middle (buf.take off) data (buf.drop (off + data.length))
  rwa [hOff] at hMiddle

theorem slice_overwrite_of_disjoint (hApart : pos + len ≤ off ∨ off + data.length ≤ pos) :
    slice pos len (overwrite off data buf) = slice pos len buf := by
  have hOff : (buf.take off).length = off := by
    simp
    omega
  rcases hApart with hBefore | hBehind
  · grind [overwrite, slice, drop_take]
  · have hFront : (buf.take off ++ data).length = off + data.length := by simp [hOff]
    obtain ⟨rest, rfl⟩ := Nat.exists_eq_add_of_le hBehind
    rw [overwrite, ← append_assoc, ← hFront, slice_append_right, slice, drop_drop, hFront, slice]

omit h

theorem overwrite_slice {off len : Nat} {buf : List UInt8} (h : off + len ≤ buf.length) :
    overwrite off (slice off len buf) buf = buf := by
  rw [overwrite, slice_length_of_le h, slice, ← drop_drop, take_append_drop, take_append_drop]

theorem overwrite_append {off : Nat} {buf : List UInt8} (front back : List UInt8)
    (h : off + front.length ≤ buf.length) :
    overwrite off (front ++ back) buf =
    overwrite (off + front.length) back (overwrite off front buf) := by
  have hFront : (buf.take off ++ front).length = off + front.length := by
    simp
    omega
  have hBuf : overwrite off front buf = (buf.take off ++ front) ++
      buf.drop (off + front.length) := by simp [overwrite]
  rw [hBuf, overwrite, overwrite, take_left' hFront, ← hFront,
    drop_length_add_append, drop_drop, hFront, length_append]
  simp [Nat.add_assoc]

theorem overwrite_middle {middle : List UInt8} (h : pos + data.length ≤ middle.length)
    (front back : List UInt8) :
    overwrite (front.length + pos) data (front ++ (middle ++ back)) =
    front ++ (overwrite pos data middle ++ back) := by
  rw [overwrite, overwrite, take_length_add_append, Nat.add_assoc, drop_length_add_append,
    take_append_of_le_length (by omega), drop_append_of_le_length (by omega)]
  simp

theorem slice_overwrite_around (h : pos + data.length ≤ len) (hIn : off + len ≤ buf.length) :
    slice off len (overwrite (off + pos) data buf) = overwrite pos data (slice off len buf) := by
  have hFront : (buf.take off).length = off := by
    simp
    omega
  have hMiddle : (slice off len buf).length = len := slice_length_of_le hIn
  have hBuf : buf = buf.take off ++ (slice off len buf ++ (buf.drop off).drop len) := by
    simp [slice]
  have hStored := overwrite_middle (hMiddle.symm ▸ h) (buf.take off) ((buf.drop off).drop len)
  have hSlice := slice_append_middle (buf.take off) (overwrite pos data (slice off len buf))
    ((buf.drop off).drop len)
  rw [overwrite_length (hMiddle.symm ▸ h), hMiddle, hFront, ← hStored, hFront, ← hBuf] at hSlice
  exact hSlice

theorem slice_overwrite_inside (hOff : off ≤ buf.length)
    (hLen : pos + len ≤ data.length) :
    slice (off + pos) len (overwrite off data buf) = slice pos len data := by
  have hFront : (buf.take off).length = off := by
    simp
    omega
  have hRight := slice_append_right (buf.take off) (data ++ buf.drop (off + data.length)) pos len
  rw [hFront] at hRight
  rw [overwrite, hRight, slice_append_left _ hLen]

def zeros (n : Nat) : List UInt8 := replicate n 0

@[simp] theorem zeros_length (n : Nat) : (zeros n).length = n := by simp [zeros]
theorem slice_zeros (h : off + len ≤ n) : slice off len (zeros n) = zeros len := by
  grind [slice, zeros]
theorem zeros_add (m n : Nat) : zeros (m + n) = zeros m ++ zeros n := replicate_add m n 0
theorem eq_zeros_iff (bs : List UInt8) : bs = zeros bs.length ↔ ∀ b ∈ bs, b = 0 := by
  simp [zeros, eq_replicate_iff]

/-- If a string padded with zeros reappears shifted behind `front`, then
`front` consists of zeros. A period of a zero-ended string is zero. -/
theorem front_zero_of_shift {front : List UInt8} (text : List UInt8) {m : Nat}
    (h : front ++ (text ++ zeros m) = text ++ zeros n) : ∀ b ∈ front, b = 0 := by
  by_cases hFront : front = []
  · subst front
    simp
  induction hLen : text.length using Nat.strong_induction_on generalizing text with
  | _ len ih =>
    rcases Nat.lt_or_ge text.length front.length with hShort | hLong
    · have hPrefix : text <+: front := by
        have hFull : front <+: text ++ zeros n := h ▸ List.prefix_append _ _
        exact List.prefix_of_prefix_length_le (List.prefix_append _ _) hFull hShort.le
      obtain ⟨rest, rfl⟩ := hPrefix
      have hTail : rest ++ (text ++ zeros m) = zeros n := by simpa [append_assoc] using h
      have hMem : ∀ b ∈ rest ++ (text ++ zeros m), b = 0 := by
        rw [hTail]
        intro b hb
        exact eq_of_mem_replicate hb
      intro b hb
      apply hMem
      simp only [mem_append] at hb ⊢
      tauto
    · have hPrefix : front <+: text := by
        have hFull : front <+: text ++ zeros n := h ▸ List.prefix_append _ _
        exact List.prefix_of_prefix_length_le hFull (List.prefix_append _ _) hLong
      obtain ⟨rest, rfl⟩ := hPrefix
      have hTail : front ++ (rest ++ zeros m) = rest ++ zeros n := by simpa [append_assoc] using h
      have hPos : 0 < front.length := length_pos_iff.mpr hFront
      exact ih rest.length (by simp at hLen; omega) rest hTail rfl

/-- A set of byte strings none of which is a proper prefix of another, so
that at most one of them stands at the start of a buffer. -/
def PrefixFree (code : List UInt8 → Prop) : Prop := ∀ p q, code p → code q → p <+: q → p = q

theorem PrefixFree.eq_of_prefix {code : List UInt8 → Prop} (free : PrefixFree code)
    {p q : List UInt8} (hp : code p) (hq : code q) (hpBuf : p <+: buf) (hqBuf : q <+: buf) :
    p = q := by
  rcases List.prefix_or_prefix_of_prefix hpBuf hqBuf with h | h
  · exact free p q hp hq h
  · exact (free q p hq hp h).symm

variable {α β : Type} {f : β → α → β} (hState : ∀ a, Function.Injective (f · a))
include hState

theorem foldl_injective (l : List α) : Function.Injective (l.foldl f ·) := by
  induction l with
  | nil => exact fun _ _ => id
  | cons a l ih => exact ih.comp (hState a)

theorem foldl_replace_iff (hByte : ∀ s, Function.Injective (f s))
    (pre post : List α) (a b : α) (s : β) :
    (pre ++ b :: post).foldl f s = (pre ++ a :: post).foldl f s ↔ b = a := by
  simp only [foldl_append, foldl_cons]
  exact (foldl_injective hState post).eq_iff.trans (hByte _).eq_iff

end Bytes
