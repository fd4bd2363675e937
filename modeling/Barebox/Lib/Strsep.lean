import Mathlib.Data.List.Basic

/-! `strsep_unescaped`, which splits a string in place. A pointer into the string is
modelled by the bytes from it up to the terminator; an access behind the terminator
gives `none`. -/
namespace Barebox.Lib
open List

/-- A token and the delimiter that ended it, NUL for the last one. -/
abbrev Token := List UInt8 × UInt8

variable (ct : List UInt8)

/-- The loop of `strsep_unescaped` with `hay` at the given bytes: `done` was written in
front of it. The result is the token and the new `*s`. -/
def strsepLoop (shift : Nat) (done : List UInt8) : List UInt8 → Option (Token × Option (List UInt8))
  | [] => none
  | byte :: behind =>
    if byte = 0 then some (⟨done.takeWhile (· ≠ 0), 0⟩, none)
    else do
      let c ← (byte :: behind)[shift]?
      if c = 92 then
        let d ← behind[shift]?
        -- only an escaped backslash is compared with the delimiters
        if d = 92 ∧ d ∈ ct then some (⟨done.takeWhile (· ≠ 0), d⟩, some (behind.drop (shift + 1)))
        else strsepLoop (shift + 1) (done ++ [d]) behind
      else if c ∈ ct then some (⟨done.takeWhile (· ≠ 0), c⟩, some (behind.drop shift))
      else strsepLoop shift (done ++ [c]) behind

/-- `strsep_unescaped` is called until it returns NULL. -/
def strsepUnescaped : Nat → Option (List UInt8) → Option (List Token)
  | 0, _ => none
  | _ + 1, none => some []
  | fuel + 1, some s =>
    (strsepLoop ct 0 [] s).bind fun (token, next) => (strsepUnescaped fuel next).map (token :: ·)

/-- Characters in front of the first token. -/
def prepend (cs : List UInt8) (ts : List Token) : List Token :=
  ts.modifyHead fun t => (cs ++ t.1, t.2)

/-- The tokens between unescaped delimiters, each backslash pair as its second
character. -/
def tokens : List UInt8 → List Token
  | [] => [⟨[], 0⟩]
  | c :: rest =>
    if c ∈ ct then ⟨[], c⟩ :: tokens rest
    else if c = 92 then
      match rest with
      | [] => [⟨[c], 0⟩]
      | d :: rest => prepend [d] (tokens rest)
    else prepend [c] (tokens rest)

/-- There is at most one backslash pair behind the last unescaped delimiter, and no
backslash without a second character. -/
def escapesFit : Nat → List UInt8 → Bool
  | shift, [] => shift ≤ 1
  | shift, c :: rest =>
    if c ∈ ct then escapesFit 0 rest
    else if c = 92 then
      match rest with
      | [] => false
      | _ :: rest => escapesFit (shift + 1) rest
    else escapesFit shift rest

/-! Below `n` is the shift, `w` what was written and `m` the memory from `hay` on. -/

variable {ct} {n : Nat} {w m l : List UInt8} {c : UInt8}

theorem read_of_drop (h : m.drop n = c :: l) : m[n]? = some c := by
  rw [← Nat.add_zero n, ← getElem?_drop, h]
  rfl

/-- One turn: the byte read is `n` bytes ahead, and `hay` stands on a stale byte or
on the byte itself. -/
theorem advance (hAhead : m.drop n = c :: l) (hStale : 0 ∉ m.take n) (hc : c ≠ 0) :
    ∃ byte behind, m = byte :: behind ∧ byte ≠ 0 ∧ (byte :: behind)[n]? = some c ∧
    behind.drop n = l ∧
      0 ∉ behind.take n := by
  rcases m with _ | ⟨byte, behind⟩
  · simp at hAhead
  have hRead := read_of_drop hAhead
  have hTake : 0 ∉ (byte :: behind).take (n + 1) := by
    rw [take_add_one, hRead]
    simp [hStale, hc.symm]
  have hTail : behind.drop n = l := by
    rw [← drop_succ_cons (a := byte), ← tail_drop, hAhead]
    rfl
  rw [take_succ_cons, mem_cons, not_or] at hTake
  exact ⟨byte, behind, rfl, Ne.symm hTake.1, hRead, hTail, hTake.2⟩

theorem takeWhile_terminated (hDone : 0 ∉ w) :
    (w ++ [0]).takeWhile (· ≠ 0) = w ∧ w.takeWhile (· ≠ 0) = w := by
  have hAll : ∀ x ∈ w, decide (x ≠ 0) = true := fun x hx => decide_eq_true fun h => hDone (h ▸ hx)
  have hNil := @takeWhile_append_of_pos _ _ w [] hAll
  rw [takeWhile_append_of_pos hAll]
  simpa using hNil

/-- Behind a copied terminator the loop only ends if `hay` stands on the terminator. -/
theorem strsepLoop_beyond (hDone : 0 ∉ w) (hAhead : m.drop n = [0]) (hStale : 0 ∉ m.take n) :
    strsepLoop ct (n + 1) (w ++ [0]) m = if n = 0 then some (⟨w, 0⟩, none) else none := by
  have hLen := congrArg length hAhead
  rw [length_drop, length_singleton] at hLen
  rcases m with _ | ⟨byte, behind⟩
  · simp at hAhead
  cases n with
  | zero => rw [strsepLoop, if_pos (by simp_all), (takeWhile_terminated hDone).1, if_pos rfl]
  | succ n =>
    have hByte : byte ≠ 0 := fun h => hStale (by simp [h])
    rw [strsepLoop, if_neg hByte, getElem?_eq_none (by omega)]
    rfl

theorem strsepLoop_end (h0 : 0 ∉ ct) (hDone : 0 ∉ w) (hAhead : m.drop n = [0])
    (hStale : 0 ∉ m.take n) :
    strsepLoop ct n w m = if n ≤ 1 then some (⟨w, 0⟩, none) else none := by
  rcases m with _ | ⟨byte, behind⟩
  · simp at hAhead
  cases n with
  | zero => rw [strsepLoop, if_pos (by simp_all), (takeWhile_terminated hDone).2,
      if_pos (Nat.zero_le 1)]
  | succ n =>
    have hByte : byte ≠ 0 := fun h => hStale (by simp [h])
    have hNext := @strsepLoop_beyond ct n w behind hDone hAhead fun h => hStale (.tail _ h)
    rw [strsepLoop, if_neg hByte, read_of_drop hAhead]
    simp [h0, hNext]

/-- A backslash takes the character behind it into the token. -/
theorem strsepLoop_pair (hct : 92 ∉ ct) {d : UInt8} (hAhead : m.drop n = 92 :: d :: l)
    (hStale : 0 ∉ m.take n) : ∃ behind, behind.drop n = d :: l ∧ 0 ∉ behind.take n ∧
      strsepLoop ct n w m = strsepLoop ct (n + 1) (w ++ [d]) behind := by
  obtain ⟨byte, behind, rfl, hByte, hRead, hNext, hKept⟩ := advance hAhead hStale (by decide)
  refine ⟨behind, hNext, hKept, ?_⟩
  rw [strsepLoop, if_neg hByte, hRead]
  simp only [Option.bind_eq_bind, Option.bind_some, if_true, read_of_drop hNext]
  rw [if_neg]
  exact fun ⟨hSlash, hIn⟩ => hct (hSlash ▸ hIn)

theorem prepend_nil (ts : List Token) : prepend [] ts = ts := by
  cases ts <;> simp [prepend]

theorem prepend_append (cs : List UInt8) (d : UInt8) (ts : List Token) :
    prepend cs (prepend [d] ts) = prepend (cs ++ [d]) ts := by
  cases ts <;> simp [prepend]

/-- The calls from the middle of a token on, with `w` of it already copied. -/
theorem strsepLoop_iff (hct : 92 ∉ ct) (h0 : 0 ∉ ct) {text : List UInt8}
    (hText : 0 ∉ text) (hDone : 0 ∉ w)
    (hAhead : m.drop n = text ++ [0]) (hStale : 0 ∉ m.take n)
    {fuel : Nat} (hFuel : text.length < fuel) :
    ((strsepLoop ct n w m).bind fun (token, next) =>
      (strsepUnescaped ct fuel next).map (token :: ·)) =
      some (prepend w (tokens ct text)) ↔ escapesFit ct n text = true := by
  obtain ⟨fuel, rfl⟩ := Nat.exists_eq_add_one.mpr (Nat.zero_lt_of_lt hFuel)
  induction text using tokens.induct ct generalizing n w m fuel with
  | case1 =>
    rw [strsepLoop_end h0 hDone hAhead hStale]
    split_ifs with hFew <;> simp [escapesFit, hFew, tokens, prepend, strsepUnescaped]
  | case2 c rest hIn ih =>
    have hc : c ≠ 92 := fun h => hct (h ▸ hIn)
    obtain ⟨byte, behind, rfl, hByte, hRead, hNext, -⟩ :=
      advance hAhead hStale (fun h => h0 (h ▸ hIn))
    obtain ⟨fuel, rfl⟩ :=
      Nat.exists_eq_add_one.mpr (Nat.zero_lt_of_lt (Nat.lt_of_succ_lt_succ hFuel))
    have hRest := ih (fun h => hText (.tail _ h)) not_mem_nil
      (n := 0) (m := rest ++ [0]) rfl (by simp) fuel
      (Nat.lt_of_succ_lt_succ hFuel)
    rw [prepend_nil, ← strsepUnescaped] at hRest
    rw [strsepLoop, if_neg hByte, hRead, tokens.eq_def, escapesFit.eq_def]
    simp only [Option.bind_eq_bind, Option.bind_some, if_neg hc,
      if_pos hIn, hNext, (takeWhile_terminated hDone).2, ← hRest]
    cases hMore : strsepUnescaped ct (fuel + 2) (some (rest ++ [0])) <;> simp_all [prepend]
  | case3 hNot =>
    obtain ⟨behind, hNext, hKept, hLoop⟩ := strsepLoop_pair (w := w) hct hAhead hStale
    rw [hLoop, strsepLoop_beyond hDone hNext hKept]
    split_ifs <;> simp [escapesFit, hct, tokens, prepend, strsepUnescaped]
  | case4 d rest hNot ih =>
    have hd : d ≠ 0 := fun h => hText (by simp [h])
    obtain ⟨behind, hNext, hKept, hLoop⟩ := strsepLoop_pair (w := w) hct hAhead hStale
    have hStale' : 0 ∉ behind.take (n + 1) := by
      rw [take_add_one, read_of_drop hNext]
      simp [hKept, hd.symm]
    have hAhead' : behind.drop (n + 1) = rest ++ [0] := by
      rw [← tail_drop, hNext]
      rfl
    have hRest := ih (fun h => hText (.tail _ (.tail _ h))) (w := w ++ [d])
      (by simp [hDone, hd.symm]) hAhead' hStale' fuel
      (Nat.lt_of_succ_lt (Nat.lt_of_succ_lt hFuel))
    rw [hLoop, tokens.eq_def, escapesFit.eq_def]
    simp only [if_neg hNot, if_true, prepend_append]
    exact hRest
  | case5 c rest hNot hc ih =>
    have hNul : c ≠ 0 := fun h => hText (by simp [h])
    obtain ⟨byte, behind, rfl, hByte, hRead, hNext, hKept⟩ := advance hAhead hStale hNul
    have hRest := ih (fun h => hText (.tail _ h)) (w := w ++ [c])
      (by simp [hDone, hNul.symm]) hNext hKept fuel
      (Nat.lt_of_succ_lt hFuel)
    rw [strsepLoop, if_neg hByte, hRead, tokens.eq_def, escapesFit.eq_def]
    simp only [Option.bind_eq_bind, Option.bind_some, if_neg hc, if_neg hNot, prepend_append]
    exact hRest

/-- The calls return the tokens of the string, and touch nothing behind its terminator,
exactly if the escapes fit. -/
theorem strsepUnescaped_iff (hct : 92 ∉ ct) (h0 : 0 ∉ ct) {s : List UInt8} (hs : 0 ∉ s) {fuel : Nat}
    (hFuel : s.length < fuel) :
    strsepUnescaped ct (fuel + 1) (some (s ++ [0])) = some (tokens ct s) ↔
    escapesFit ct 0 s = true := by
  have hIff := strsepLoop_iff hct h0 hs (w := []) not_mem_nil
    (m := s ++ [0]) (n := 0) rfl (by simp) hFuel
  rwa [prepend_nil] at hIff

theorem strsepUnescaped_iff_pair :
    strsepUnescaped [44] 9 (some ([97, 92, 44, 98, 44, 99] ++ [0])) =
      some (tokens [44] [97, 92, 44, 98, 44, 99]) :=
  (strsepUnescaped_iff (by decide) (by decide) (by decide) (by decide)).mpr (by decide)

/-- With two escapes in the last token, the loop reads behind the terminator. -/
theorem strsepUnescaped_two_pairs : strsepUnescaped [44] 9 (some ([92, 97, 92, 98] ++ [0])) = none ∧
    tokens [44] [92, 97, 92, 98] = [⟨[97, 98], 0⟩] := by
  decide

end Barebox.Lib
