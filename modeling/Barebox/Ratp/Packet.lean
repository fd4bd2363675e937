import Barebox.Errno
import Barebox.Lib.CrcItuT

/-! Packets of RATP: header, payload and their bytes on the link. -/
namespace Barebox.Ratp
open Bytes Barebox.Lib

/-- The control byte, `RATP_CONTROL_*`. -/
structure Control where
  so : Bool
  eor : Bool
  an : Bool
  sn : Bool
  rst : Bool
  fin : Bool
  ack : Bool
  syn : Bool
  deriving DecidableEq, Repr

namespace Control

def none : Control := ⟨false, false, false, false, false, false, false, false⟩

def toByte (c : Control) : UInt8 :=
  (if c.so then 1 else 0) ||| (if c.eor then 2 else 0) ||| (if c.an then 4 else 0) |||
    (if c.sn then 8 else 0) |||
    (if c.rst then 16 else 0) ||| (if c.fin then 32 else 0) |||
      (if c.ack then 64 else 0) ||| (if c.syn then 128 else 0)

def ofByte (b : UInt8) : Control :=
  ⟨b &&& 1 ≠ 0, b &&& 2 ≠ 0, b &&& 4 ≠ 0, b &&& 8 ≠ 0, b &&& 16 ≠ 0,
    b &&& 32 ≠ 0, b &&& 64 ≠ 0, b &&& 128 ≠ 0⟩

theorem ofByte_toByte (c : Control) : ofByte c.toByte = c := by
  obtain ⟨so, eor, an, sn, rst, fin, ack, syn⟩ := c
  revert so eor an sn rst fin ack syn
  decide +kernel

end Control

/-- `struct ratp_header` without the fixed and the redundant byte. -/
structure Header where
  control : Control
  dataLength : UInt8
  deriving DecidableEq, Repr

structure Packet extends Header where
  payload : List UInt8
  deriving DecidableEq, Repr

def Control.headerOnly (c : Control) : Bool := c.so || c.rst || c.syn || c.fin

def ratpHasData (hdr : Header) : Bool :=
  hdr.control.so ||
    (!(hdr.control.syn || hdr.control.rst || hdr.control.fin) && hdr.dataLength != 0)

def ratpCreatePacket (hdr : Header) : List UInt8 :=
  [1, hdr.control.toByte, hdr.dataLength, (hdr.control.toByte + hdr.dataLength) ^^^ 0xff]

def ratpHeaderOk (control dataLength cksum : UInt8) : Bool := control + dataLength + cksum == 0xff

def Packet.encode (p : Packet) : List UInt8 :=
  ratpCreatePacket p.toHeader ++ if p.payload = [] then []
    else p.payload ++ be 2 (crcItuT 0 p.payload).toNat

/-- `ratp_recv_pkt_data`: the data area of the receive buffer and the rest of the
stream. Where the stream ends the receiver gives up waiting. -/
def ratpRecvPktData (recvbuf : List UInt8) (len : Nat) (stream : List UInt8) :
    Except Errno Unit × List UInt8 × List UInt8 :=
  let data := stream.take (len + 2)
  let recvbuf := overwrite 0 data recvbuf
  if stream.length < len + 2 then (.error .eagain, recvbuf, [])
  else if (crcItuT 0 (data.take len)).toNat ≠ ofBe (data.drop len) then
    (.error .ebadmsg, recvbuf, stream.drop (len + 2))
  else (.ok (), recvbuf, stream.drop (len + 2))

/-- `ratp_recv_pkt`: the header, the data area of the receive buffer and the rest of
the stream. -/
def ratpRecvPkt (recvbuf stream : List UInt8) : Except Errno Header × List UInt8 × List UInt8 :=
  match stream.dropWhile (· ≠ 1) with
  | _ :: control :: dataLength :: cksum :: rest =>
    if !ratpHeaderOk control dataLength cksum then (.error .eagain, recvbuf, rest)
    else
      let hdr : Header := ⟨.ofByte control, dataLength⟩
      if hdr.control.headerOnly || dataLength == 0 then (.ok hdr, recvbuf, rest)
      else
        match ratpRecvPktData recvbuf dataLength.toNat rest with
        | (.ok (), recvbuf, rest) => (.ok hdr, recvbuf, rest)
        | (.error e, recvbuf, rest) => (.error e, recvbuf, rest)
  | _ => (.error .eagain, recvbuf, [])

def Packet.WellFormed (p : Packet) : Prop :=
  if p.control.headerOnly then p.payload = [] else p.payload.length = p.dataLength.toNat

theorem ratpHeaderOk_create (control dataLength : UInt8) :
    ratpHeaderOk control dataLength ((control + dataLength) ^^^ 0xff) = true := by
  have hByte : ∀ n < 256, UInt8.ofNat n + (UInt8.ofNat n ^^^ 0xff) = 0xff := by decide +kernel
  have hSum := hByte (control + dataLength).toNat (control + dataLength).toNat_lt
  grind [UInt8.ofNat_toNat, ratpHeaderOk]

theorem ratpRecvPktData_ok (recvbuf data rest : List UInt8) :
    ratpRecvPktData recvbuf data.length (data ++ be 2 (crcItuT 0 data).toNat ++ rest) =
      (.ok (), overwrite 0 (data ++ be 2 (crcItuT 0 data).toNat) recvbuf, rest) := by
  have hLen : (data ++ be 2 (crcItuT 0 data).toNat).length = data.length + 2 := by simp
  have hCrc : ofBe (be 2 (crcItuT 0 data).toNat) = (crcItuT 0 data).toNat :=
    ofBe_be_of_lt (crcItuT 0 data).toNat_lt
  grind [ratpRecvPktData]

/-- The checksum finds every change of one byte of the payload. -/
theorem ratpRecvPktData_replaced (recvbuf pre post rest : List UInt8) (a b : UInt8) :
    ratpRecvPktData recvbuf (pre ++ b :: post).length
        (pre ++ b :: post ++ be 2 (crcItuT 0 (pre ++ a :: post)).toNat ++ rest) =
      (if b = a then .ok () else .error .ebadmsg,
        overwrite 0 (pre ++ b :: post ++ be 2 (crcItuT 0 (pre ++ a :: post)).toNat) recvbuf,
        rest) := by
  have hIff := crcItuT_replace_iff 0 pre post a b
  have hCrc : ofBe (be 2 (crcItuT 0 (pre ++ a :: post)).toNat) = _ :=
    ofBe_be_of_lt (crcItuT 0 _).toNat_lt
  generalize pre ++ b :: post = data at *
  grind [ratpRecvPktData, UInt16.toNat_inj, be_length]

def received (p : Packet) (recvbuf : List UInt8) : List UInt8 :=
  if p.payload = [] then recvbuf
  else overwrite 0 (p.payload ++ be 2 (crcItuT 0 p.payload).toNat) recvbuf

/-- Over a link without errors a packet arrives as it was sent. A packet without a
payload leaves the data area alone. -/
theorem ratpRecvPkt_encode {p : Packet} (h : p.WellFormed) (recvbuf rest : List UInt8) :
    ratpRecvPkt recvbuf (p.encode ++ rest) = (.ok p.toHeader, received p recvbuf, rest) := by
  obtain ⟨⟨control, dataLength⟩, payload⟩ := p
  have hSync : ∀ tail : List UInt8, (1 :: tail).dropWhile (· ≠ 1) = 1 :: tail := fun tail => by simp
  simp only [received, Packet.encode, ratpCreatePacket, List.cons_append,
    List.nil_append, ratpRecvPkt, hSync,
    ratpHeaderOk_create, Bool.not_true, Bool.false_eq_true, if_false, Control.ofByte_toByte]
  by_cases hOnly : control.headerOnly = true
  · obtain rfl : payload = [] := by simpa [Packet.WellFormed, hOnly] using h
    simp [hOnly]
  have hLen : payload.length = dataLength.toNat := by simpa [Packet.WellFormed, hOnly] using h
  by_cases hZero : dataLength = 0
  · obtain rfl : payload = [] := List.eq_nil_of_length_eq_zero (by rw [hLen, hZero]; rfl)
    simp [hZero]
  have hNe : payload ≠ [] := by
    rintro rfl
    exact hZero (UInt8.toNat_inj.mp hLen.symm)
  rw [if_neg (by simp [hOnly, hZero]), if_neg hNe, if_neg hNe, ← hLen, ratpRecvPktData_ok]

end Barebox.Ratp
