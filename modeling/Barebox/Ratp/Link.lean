import Barebox.Ratp.Endpoint

/-! Two ends joined by two channels that keep the order of packets but may lose
them or deliver them twice, and the bookkeeping of what is in flight: with every
packet go the number of fragments its sender had handed over and the number it
had accepted when it was sent. -/
namespace Barebox.Ratp
open Bytes Barebox.Lib List

structure Link where
  a : RatpInternal
  b : RatpInternal
  ab : List Packet
  ba : List Packet

def Link.flip (l : Link) : Link := ⟨l.b, l.a, l.ba, l.ab⟩

/-- What can happen at one end: a poll, with the first packet of the channel if it
has arrived; data given to `ratp_send`; loss and duplication of a packet that it
has sent. -/
inductive Action where
  | poll (arrived : Bool) (timers : Timers)
  | send (data : List UInt8)
  | lose (n : Nat)
  | duplicate (n : Nat)
  deriving DecidableEq

namespace Link
variable (l : Link)

def incoming (arrived : Bool) : List UInt8 :=
  match arrived, l.ba with
  | true, p :: _ => p.encode
  | _, _ => []

/-- A poll of the first end; what it sends goes into its channel. -/
def poll (arrived : Bool) (timers : Timers) : Link :=
  let ri := (ratpPoll l.a (l.incoming arrived) timers).2.1
  { l with
    a := { ri with out := [] }, ab := l.ab ++ ri.out, ba := if arrived then l.ba.tail else l.ba }

def act : Action → Link
  | .poll arrived timers => l.poll arrived timers
  | .send data =>
    match ratpSend l.a data with
    | some (.ok ri) => { l with a := ri }
    | _ => l
  | .lose n => { l with ab := l.ab.take n ++ l.ab.drop (n + 1) }
  | .duplicate n => { l with ab := l.ab.take (n + 1) ++ l.ab.drop n }

def step : Action ⊕ Action → Link
  | .inl action => l.act action
  | .inr action => (l.flip.act action).flip

def run (actions : List (Action ⊕ Action)) : Link := actions.foldl step l

def opened (activeA activeB : Bool) (bufA bufB : List UInt8) : Link :=
  let a := ratpEstablish activeA bufA
  let b := ratpEstablish activeB bufB
  ⟨{ a with out := [] }, { b with out := [] }, a.out, b.out⟩

end Link

def odd (n : Nat) : Bool := n % 2 == 1

@[simp] theorem odd_succ (n : Nat) : odd (n + 1) = !odd n := by
  unfold odd
  rcases Nat.mod_two_eq_zero_or_one n with h | h
  · simp [show (n + 1) % 2 = 1 by omega, h]
  · simp [show (n + 1) % 2 = 0 by omega, h]

theorem odd_eq_iff {m n : Nat} (h : m ≤ n) (h' : n ≤ m + 1) : odd m = odd n ↔ m = n := by
  constructor
  · intro hOdd
    rcases Nat.lt_or_ge m n with hLt | hGe
    · obtain rfl : n = m + 1 := by omega
      simp at hOdd
    · omega
  · rintro rfl
    rfl

def Packet.fragment (p : Packet) : Message :=
  ⟨if p.control.so then [p.dataLength] else p.payload, p.control.eor⟩

/-- What is true of a packet apart from its acknowledgement, after `i` fragments
were handed over: data is the last of them and has its number. -/
structure BodyOk (handed : List Message) (i : Nat) (p : Packet) : Prop where
  wellFormed : p.WellFormed
  fin : p.control.fin = false
  syn : p.control.syn = true → p.control.sn = false
  data : ratpHasData p.toHeader = true → p.control.ack = true ∧
    p.control.syn = false ∧ p.control.rst = false ∧
    p.control.sn = odd i ∧ ∃ j, i = j + 1 ∧ handed[j]? = some p.fragment

/-- The acknowledgement of a packet is that of the first `r` fragments. -/
def AckOk (r : Nat) (p : Packet) : Prop := p.control.ack = true → p.control.an = !odd r

/-- Packets in flight after `r` fragments were accepted by their sender, all sent
after `fi` fragments were handed over and `fr` fragments accepted. -/
def Flight (handed : List Message) (sent : List Packet) (r fi fr : Nat) : Prop :=
  ∃ marked : List (Packet × Nat × Nat), marked.map (·.1) = sent ∧
    marked.Pairwise (fun x y => x.2.1 ≤ y.2.1 ∧ x.2.2 ≤ y.2.2) ∧
    ∀ x ∈ marked, BodyOk handed x.2.1 x.1 ∧ AckOk x.2.2 x.1 ∧
      fi ≤ x.2.1 ∧ x.2.1 ≤ handed.length ∧ fr ≤ x.2.2 ∧ x.2.2 ≤ r

theorem BodyOk.append {handed : List Message} {i : Nat} {p : Packet}
    (h : BodyOk handed i p) (more : List Message) :
    BodyOk (handed ++ more) i p := by
  refine { h with data := fun hData => ?_ }
  obtain ⟨hAck, hSyn, hRst, hSn, j, hj, hFragment⟩ := h.data hData
  have hLt : j < handed.length := (List.getElem?_eq_some_iff.mp hFragment).1
  exact ⟨hAck, hSyn, hRst, hSn, j, hj, by rw [getElem?_append_left hLt]; exact hFragment⟩

namespace Flight
variable {handed : List Message} {sent : List Packet} {r fi fr : Nat}

theorem nil (handed : List Message) (r fi fr : Nat) : Flight handed [] r fi fr :=
  ⟨[], rfl, .nil, nofun⟩

theorem mono (h : Flight handed sent r fi fr) {r' fi' fr' : Nat}
    (more : List Message) (hr : r ≤ r') (hi : fi' ≤ fi)
    (hf : fr' ≤ fr) : Flight (handed ++ more) sent r' fi' fr' := by
  obtain ⟨marked, hSent, hSorted, hAll⟩ := h
  refine ⟨marked, hSent, hSorted, fun x hx => ?_⟩
  obtain ⟨hBody, hAck, h1, h2, h3, h4⟩ := hAll x hx
  refine ⟨hBody.append more, hAck, by omega, ?_, by omega, by omega⟩
  simp
  omega

theorem emit (h : Flight handed sent r fi fr) {p : Packet} (hBody : BodyOk handed handed.length p)
    (hAck : AckOk r p)
    (hi : fi ≤ handed.length) (hr : fr ≤ r) : Flight handed (sent ++ [p]) r fi fr := by
  obtain ⟨marked, hSent, hSorted, hAll⟩ := h
  refine ⟨marked ++ [(p, handed.length, r)], by simp [hSent], ?_, fun x hx => ?_⟩
  · refine pairwise_append.mpr ⟨hSorted, pairwise_singleton _ _, fun x hx y hy => ?_⟩
    obtain rfl := mem_singleton.mp hy
    obtain ⟨_, _, _, h2, _, h4⟩ := hAll x hx
    exact ⟨h2, h4⟩
  rcases mem_append.mp hx with hOld | hNew
  · exact hAll x hOld
  · obtain rfl := mem_singleton.mp hNew
    exact ⟨hBody, hAck, hi, le_rfl, hr, le_rfl⟩

/-- The first packet arrives: the others were sent no earlier. -/
theorem uncons {p : Packet} (h : Flight handed (p :: sent) r fi fr) :
    ∃ i k, BodyOk handed i p ∧ AckOk k p ∧ fi ≤ i ∧ i ≤ handed.length ∧
    fr ≤ k ∧ k ≤ r ∧ Flight handed sent r i k := by
  obtain ⟨marked, hSent, hSorted, hAll⟩ := h
  rcases marked with _ | ⟨x, marked⟩
  · cases hSent
  obtain ⟨rfl, rfl⟩ := List.cons.inj hSent
  obtain ⟨hBody, hAck, h1, h2, h3, h4⟩ := hAll x (.head _)
  refine ⟨x.2.1, x.2.2, hBody, hAck, h1, h2, h3, h4, marked, rfl, hSorted.of_cons, fun y hy => ?_⟩
  obtain ⟨hBody', hAck', _, h2', _, h4'⟩ := hAll y (.tail _ hy)
  obtain ⟨hi, hk⟩ := rel_of_pairwise_cons hSorted hy
  exact ⟨hBody', hAck', hi, h2', hk, h4'⟩

variable (h : Flight handed sent r fi fr) (n : Nat)
include h

theorem lose : Flight handed (sent.take n ++ sent.drop (n + 1)) r fi fr := by
  obtain ⟨marked, rfl, hSorted, hAll⟩ := h
  have hSub : (marked.take n ++ marked.drop (n + 1)).Sublist marked := by
    conv => rhs; rw [← take_append_drop n marked]
    exact (Sublist.refl _).append (drop_sublist_drop_left marked (Nat.le_succ n))
  refine ⟨marked.take n ++ marked.drop (n + 1), by simp, hSorted.sublist hSub,
    fun x hx => hAll x (hSub.subset hx)⟩

theorem duplicate : Flight handed (sent.take (n + 1) ++ sent.drop n) r fi fr := by
  obtain ⟨marked, rfl, hSorted, hAll⟩ := h
  refine ⟨marked.take (n + 1) ++ marked.drop n, by simp, ?_, fun x hx => ?_⟩
  · rw [← take_append_drop n marked] at hSorted
    obtain ⟨hFront, hBack, hAcross⟩ := pairwise_append.mp hSorted
    rcases hDrop : marked.drop n with _ | ⟨x, rest⟩
    · grind
    rw [take_add, hDrop]
    rw [hDrop] at hBack hAcross
    refine pairwise_append.mpr ⟨pairwise_append.mpr ⟨hFront, pairwise_singleton _ _, ?_⟩, hBack, ?_⟩
    · intro y hy z hz
      obtain rfl := mem_singleton.mp hz
      exact hAcross y hy z (.head _)
    intro y hy z hz
    rcases mem_append.mp hy with hOld | hNew
    · exact hAcross y hOld z hz
    obtain rfl := mem_singleton.mp hNew
    rcases mem_cons.mp hz with rfl | hRest
    · exact ⟨le_rfl, le_rfl⟩
    · exact rel_of_pairwise_cons hBack hRest
  · rcases mem_append.mp hx with hFront | hBack
    · exact hAll x (mem_of_mem_take hFront)
    · exact hAll x (mem_of_mem_drop hBack)

end Flight
end Barebox.Ratp
