import Mathlib.Tactic.Ring

/-! Paths through a tree of blocks in which every block holds digests at numbered slots, up to a
root digest. The digest, the slots and how a block is packed are parameters; nothing is said about
collisions except where a set of blocks without one is given. -/
namespace HashPath
variable {Block Digest : Type*}

def digits (base : Nat) : Nat → Nat → List Nat
  | 0, _ => []
  | n + 1, q => q % base :: digits base n (q / base)

/-- A digest lies at its slot in the first block, the digest of that block at its slot in the next
one, and so on up to the root. -/
def Leads (digest : Block → Digest) (slot : Nat → Block → Digest) (root : Digest) :
    Digest → List Nat → List Block → Prop
  | d, [], [] => d = root
  | d, i :: is, b :: bs => slot i b = d ∧ Leads digest slot root (digest b) is bs
  | _, _, _ => False

section Uniqueness
variable {digest : Block → Digest} {slot : Nat → Block → Digest} {root : Digest}

/-- Among blocks without a collision the root determines all blocks of a path and the digest it
starts from. -/
theorem Leads.unique {S : Set Block} (hInj : Set.InjOn digest S)
    {is : List Nat} {d d' : Digest} {bs bs' : List Block}
    (h : Leads digest slot root d is bs) (h' : Leads digest slot root d' is bs')
    (hIn : ∀ b ∈ bs, b ∈ S)
    (hIn' : ∀ b ∈ bs', b ∈ S) : bs = bs' ∧ d = d' := by
  induction is generalizing d d' bs bs' with
  | nil =>
    cases bs with
    | nil =>
      cases bs' with
      | nil => exact ⟨rfl, Eq.trans h (Eq.symm h')⟩
      | cons b' bs' => exact h'.elim
    | cons b bs => exact h.elim
  | cons i is ih =>
    rcases bs with _ | ⟨b, bs⟩
    · exact h.elim
    rcases bs' with _ | ⟨b', bs'⟩
    · exact h'.elim
    obtain ⟨hSlot, hRest⟩ := h
    obtain ⟨hSlot', hRest'⟩ := h'
    obtain ⟨rfl, hDigest⟩ :=
      ih hRest hRest' (fun c hc => hIn c (.tail _ hc)) (fun c hc => hIn' c (.tail _ hc))
    have hb : b = b' := hInj (hIn b (.head _)) (hIn' b' (.head _)) hDigest
    grind

end Uniqueness

variable (digest : Block → Digest) (pack : (Nat → Option Digest) → Block)
    (base num : Nat) (leaf : Nat → Digest)

/-- What is stored about an item of a level: the digest of a leaf, or of the block that packs the
items below it. An item without a leaf below it is not there. -/
def entry : Nat → Nat → Digest
  | 0, q => leaf q
  | l + 1, q =>
    digest (pack fun i => if (q * base + i) * base ^ l < num then some (entry l (q * base + i))
      else none)

def block (l q : Nat) : Block :=
  pack fun i =>
    if (q * base + i) * base ^ l < num then some (entry digest pack base num leaf l (q * base + i))
    else none

def blocksAbove : Nat → Nat → Nat → List Block
  | 0, _, _ => []
  | n + 1, l, q => block digest pack base num leaf l (q / base) :: blocksAbove n (l + 1) (q / base)

variable {digest pack base num leaf} {slot : Nat → Block → Digest}

/-- The blocks above an item are a path from its digest, if a packed block has the digests of the
form at hand at their slots. -/
theorem blocksAbove_leads {Form : Digest → Prop}
    (hSlot : ∀ f i d, i < base → f i = some d → Form d → slot i (pack f) = d)
    (hDigest : ∀ b, Form (digest b)) (hLeaf : ∀ q, Form (leaf q))
    (hBase : 0 < base) (n : Nat) {l q : Nat}
    (hIn : q * base ^ l < num) :
    Leads digest slot (entry digest pack base num leaf (l + n) (q / base ^ n))
    (entry digest pack base num leaf l q)
      (digits base n q) (blocksAbove digest pack base num leaf n l q) := by
  induction n generalizing l q with
  | zero =>
    rw [Nat.pow_zero, Nat.div_one]
    exact rfl
  | succ n ih =>
    have hParts : q / base * base + q % base = q := Nat.div_add_mod' q base
    have hUp : q / base * base ^ (l + 1) < num := by
      refine lt_of_le_of_lt ?_ hIn
      calc q / base * base ^ (l + 1) = q / base * base * base ^ l := by ring
        _ ≤ q * base ^ l := Nat.mul_le_mul_right _ (Nat.div_mul_le_self q base)
    refine ⟨?_, ?_⟩
    · refine hSlot _ _ _ (Nat.mod_lt _ hBase) (by rw [hParts, if_pos hIn]) ?_
      cases l with
      | zero => exact hLeaf q
      | succ l => exact hDigest _
    · have hAbove := ih hUp
      rw [Nat.div_div_eq_div_mul, ← Nat.pow_succ', show l + 1 + n = l + (n + 1) by omega] at hAbove
      exact hAbove

end HashPath
