import Barebox.State.Refresh

/-! Copies on a shared medium. What the buckets of a storage have to do for their copies to last is
stated as laws of their operations; under these laws a load restores the redundancy. -/
namespace Barebox.State
open List

section Laws
variable {β σ : Type}

/-- A bucket returns the bytes `x`, and maybe more, when it is read. -/
def Shows (ops : BucketOps β σ) (x : List UInt8) (dev : β) (m : σ) : Prop :=
  ∃ p, (ops.read dev m).1.payload = some p ∧ x <+: p.1.take p.2

/-- Buckets that keep the byte strings `X`. A bucket that is `Ready` takes them, one that is `Safe`
goes on showing what it shows while buckets `Apart` from it are written. -/
structure KeepsCopies (ops : BucketOps β σ) (X : Set (List UInt8)) (Safe Ready : σ → β → Prop)
    (Apart : β → β → Prop) : Prop where
  sized : ∀ dev m p, (ops.read dev m).1.payload = some p → p.2 ≤ p.1.length
  symm : ∀ dev dev', Apart dev dev' → Apart dev' dev
  safe : ∀ m dev, Ready m dev → Safe m dev
  readShared : ∀ dev m, (ops.read dev m).2.2 = m
  readApart : ∀ dev dev' m, Apart dev dev' → Apart (ops.read dev m).2.1 dev'
  readReady : ∀ dev m, Ready m dev → Ready m (ops.read dev m).2.1
  readAgain : ∀ dev m, ∀ x ∈ X, Ready m dev → Shows ops x dev m → Shows ops x (ops.read dev m).2.1 m
  write : ∀ dev m, ∀ x ∈ X, Ready m dev → (ops.write dev m x).1 = .ok () ∧
    Safe (ops.write dev m x).2.2 (ops.write dev m x).2.1 ∧
    Shows ops x (ops.write dev m x).2.1 (ops.write dev m x).2.2
  writeApart : ∀ dev dev' m x, Apart dev dev' → Apart (ops.write dev m x).2.1 dev'
  writeOther : ∀ dev dev' m, ∀ x ∈ X, Ready m dev → Apart dev dev' →
    (Safe m dev' → Safe (ops.write dev m x).2.2 dev') ∧
      (Ready m dev' → Ready (ops.write dev m x).2.2 dev') ∧
    ∀ y ∈ X, Safe m dev' → Shows ops y dev' m → Shows ops y dev' (ops.write dev m x).2.2

/-- What was made of the medium has done no harm to a bucket. -/
structure Unharmed (ops : BucketOps β σ) (X : Set (List UInt8))
    (Safe Ready : σ → β → Prop) (m m' : σ)
    (dev : β) : Prop where
  safe : Safe m dev → Safe m' dev
  ready : Ready m dev → Ready m' dev
  shows : ∀ y ∈ X, Safe m dev → Shows ops y dev m → Shows ops y dev m'

section Unharmed
variable {ops : BucketOps β σ} {X : Set (List UInt8)} {Safe Ready : σ → β → Prop}
    {m m' m'' : σ} {dev : β}

theorem Unharmed.refl : Unharmed ops X Safe Ready m m dev := ⟨id, id, fun _ _ _ => id⟩

theorem Unharmed.trans (h : Unharmed ops X Safe Ready m m' dev)
    (h' : Unharmed ops X Safe Ready m' m'' dev) :
    Unharmed ops X Safe Ready m m'' dev :=
  ⟨h'.safe ∘ h.safe, h'.ready ∘ h.ready, fun y hy hSafe hShows =>
    h'.shows y hy (h.safe hSafe) (h.shows y hy hSafe hShows)⟩

end Unharmed

variable {ops : BucketOps β σ} {X : Set (List UInt8)} {Safe Ready : σ → β → Prop}
    {Apart : β → β → Prop}
  (laws : KeepsCopies ops X Safe Ready Apart) {buf x : List UInt8} {len : Nat} {m : σ}

/-- A bucket behind the first loop of a load: it is due for a refresh with `x`, or shows it. -/
def Due (ops : BucketOps β σ) (x buf : List UInt8) (len : Nat) (m : σ) (b : Bucket β) : Prop :=
  if refreshes buf len b then buf.take len = x else Shows ops x b.dev m

include laws

/-- A bucket that came to no harm is due as before. -/
theorem Due.later {m' : σ} {b : Bucket β} (hx : x ∈ X) (hReady : Ready m b.dev)
    (h : Unharmed ops X Safe Ready m m' b.dev) (hDue : Due ops x buf len m b) :
    Due ops x buf len m' b := by
  unfold Due at hDue ⊢
  split
  next hStale => rwa [if_pos hStale] at hDue
  next hFresh =>
    rw [if_neg hFresh] at hDue
    exact h.shows x hx (laws.safe _ _ hReady) hDue

/-- Refreshing one bucket: it shows `x` then, and the others come to no harm. -/
theorem bucketRefresh_copies (hx : x ∈ X) {b : Bucket β} (hReady : Ready m b.dev)
    (hDue : Due ops x buf len m b) :
    (∀ w ∈ (bucketRefresh ops buf len b m).1, w.ret = .ok ()) ∧
      (Safe (bucketRefresh ops buf len b m).2.2 (bucketRefresh ops buf len b m).2.1.dev ∧
        Shows ops x (bucketRefresh ops buf len b m).2.1.dev (bucketRefresh ops buf len b m).2.2) ∧
      ∀ dev, Apart b.dev dev → Apart (bucketRefresh ops buf len b m).2.1.dev dev ∧
        Unharmed ops X Safe Ready m (bucketRefresh ops buf len b m).2.2 dev := by
  unfold Due refreshes at hDue
  unfold bucketRefresh
  by_cases hStale : b.needsRefresh ∨ b.len ≠ len ∨ b.buf.take len ≠ buf.take len
  · rw [if_pos (decide_eq_true hStale)] at hDue
    rw [if_pos hStale, hDue]
    obtain ⟨hOk, hSafe, hShows⟩ := laws.write b.dev m x hx hReady
    have hOther (dev : β) (hApart : Apart b.dev dev) :=
      laws.writeOther b.dev dev m x hx hReady hApart
    have hApart (dev : β) := laws.writeApart b.dev dev m x
    rcases hWrite : ops.write b.dev m x with ⟨ret, dev', m'⟩
    rw [hWrite] at hOk hSafe hShows hOther hApart
    dsimp only at hOk
    subst hOk
    refine ⟨by simp, ⟨hSafe, hShows⟩, fun dev h => ⟨hApart dev h, ?_⟩⟩
    obtain ⟨hKeep, hTake, hShow⟩ := hOther dev h
    exact ⟨hKeep, hTake, hShow⟩
  · rw [if_neg (by simpa using hStale)] at hDue
    rw [if_neg hStale]
    exact ⟨nofun, ⟨laws.safe _ _ hReady, hDue⟩, fun dev h => ⟨h, .refl⟩⟩

/-- Refreshing a list of buckets: all of them show `x` then, and the others come to no harm. -/
theorem bucketsRefresh_copies (hx : x ∈ X) {buckets : List (Bucket β)}
    (hApart : buckets.Pairwise fun b c => Apart b.dev c.dev) (hReady : ∀ b ∈ buckets, Ready m b.dev)
    (hDue : ∀ b ∈ buckets, Due ops x buf len m b) :
    (∀ w ∈ (bucketsRefresh ops buf len buckets m).1, w.ret = .ok ()) ∧
      (∀ b ∈ (bucketsRefresh ops buf len buckets m).2.1,
        Safe (bucketsRefresh ops buf len buckets m).2.2 b.dev ∧
          Shows ops x b.dev (bucketsRefresh ops buf len buckets m).2.2) ∧
      ∀ dev, (∀ b ∈ buckets, Apart b.dev dev) →
        (∀ b ∈ (bucketsRefresh ops buf len buckets m).2.1, Apart b.dev dev) ∧
        Unharmed ops X Safe Ready m (bucketsRefresh ops buf len buckets m).2.2 dev := by
  induction buckets generalizing m with
  | nil => exact ⟨nofun, nofun, fun dev _ => ⟨nofun, .refl⟩⟩
  | cons b rest ih =>
    obtain ⟨hHead, hTail⟩ := pairwise_cons.mp hApart
    obtain ⟨hWrites, ⟨hSafe, hShows⟩, hOther⟩ :=
      bucketRefresh_copies laws hx (hReady b (.head _)) (hDue b (.head _))
    rw [bucketsRefresh]
    rcases hRefresh : bucketRefresh ops buf len b m with ⟨write, b', m'⟩
    rw [hRefresh] at hWrites hSafe hShows hOther
    have hRest :=
      @ih m' hTail (fun c hc => (hOther c.dev (hHead c hc)).2.ready (hReady c (.tail _ hc)))
      (fun c hc => Due.later laws hx (hReady c (.tail _ hc)) (hOther c.dev (hHead c hc)).2
        (hDue c (.tail _ hc)))
    dsimp only
    rcases hAll : bucketsRefresh ops buf len rest m' with ⟨writes, rest', m''⟩
    rw [hAll] at hRest
    obtain ⟨hWrites', hShows', hOther'⟩ := hRest
    -- the first bucket is among the others of the rest
    obtain ⟨-, hFirst⟩ := hOther' b'.dev fun c hc =>
      laws.symm _ _ (hOther c.dev (hHead c hc)).1
    refine ⟨?_, ?_, ?_⟩
    · intro w hw
      rcases mem_append.mp hw with hw | hw
      · exact hWrites w (Option.mem_toList.mp hw)
      · exact hWrites' w hw
    · refine forall_mem_cons.mpr ⟨⟨hFirst.safe hSafe, hFirst.shows x hx hSafe hShows⟩, hShows'⟩
    · intro dev hDev
      obtain ⟨hDevHead, hDevTail⟩ := forall_mem_cons.mp hDev
      obtain ⟨hNew, hStep⟩ := hOther dev hDevHead
      obtain ⟨hNews, hSteps⟩ := hOther' dev hDevTail
      exact ⟨forall_mem_cons.mpr ⟨hNew, hNews⟩, hStep.trans hSteps⟩

/-- The part of a load behind its first loop makes every bucket show `x`. -/
theorem storageRestore_copies {f : Type} (hx : x ∈ X)
    {checked : List (Except Errno Unit × Bucket β)}
    {ret : Except Errno Unit} {used : Bucket β}
    (hFind : checked.find? (fun c => c.1.isOk) = some (ret, used))
    (hApart : checked.Pairwise fun c d => Apart c.2.dev d.2.dev)
    (hReady : ∀ c ∈ checked, Ready m c.2.dev)
    (hDue : ∀ c ∈ checked, Due ops x used.buf used.len m c.2) (readonly : Bool) (format : f) :
    (∀ w ∈ (storageRestore ops readonly checked m format).writes, w.ret = .ok ()) ∧
      ∀ b ∈ (storageRestore ops readonly checked m format).storage.buckets,
        Shows ops x b.dev (storageRestore ops readonly checked m format).storage.shared := by
  have hSplit := takeWhile_append_dropWhile (p := fun c => !c.1.isOk) (l := checked)
  rw [List.find?_eq_head?_dropWhile_not] at hFind
  rw [storageRestore, span_eq_takeWhile_dropWhile]
  cases hDrop : checked.dropWhile (fun c => !c.1.isOk) with
  | nil =>
    rw [hDrop] at hFind
    cases hFind
  | cons c after =>
    rw [hDrop] at hFind hSplit
    cases Option.some.inj hFind
    generalize checked.takeWhile (fun c => !c.1.isOk) = before at hSplit
    subst hSplit
    obtain ⟨hBefore, hRest, hAcross⟩ := pairwise_append.mp hApart
    obtain ⟨hUsed, hAfter⟩ := pairwise_cons.mp hRest
    -- first the buckets in front of the used one
    obtain ⟨hWrites, hShows, hOther⟩ :=
      @bucketsRefresh_copies β σ ops X Safe Ready Apart laws used.buf x used.len m hx
      (before.map Prod.snd) (pairwise_map.mpr hBefore)
      (forall_mem_map.mpr fun c hc => hReady c (mem_append_left _ hc))
      (forall_mem_map.mpr fun c hc => hDue c (mem_append_left _ hc))
    have hOthers (d : Except Errno Unit × Bucket β) (hd : d ∈ (ret, used) :: after) :=
      hOther d.2.dev (forall_mem_map.mpr fun c hc => hAcross c hc d hd)
    have hLater (m' : σ) (d : Except Errno Unit × Bucket β) (hd : d ∈ (ret, used) :: after)
        (h : Unharmed ops X Safe Ready m m' d.2.dev) :
        Ready m' d.2.dev ∧ Due ops x used.buf used.len m' d.2 := by
      have hIn : d ∈ before ++ (ret, used) :: after := mem_append_right _ hd
      exact ⟨h.ready (hReady d hIn), Due.later laws hx (hReady d hIn) h (hDue d hIn)⟩
    dsimp only
    rcases hFirst : bucketsRefresh ops used.buf used.len (before.map Prod.snd) m with
        ⟨first, before', m₁⟩
    rw [hFirst] at hWrites hShows hOther hOthers
    -- then those behind it
    obtain ⟨hWrites₂, hShows₂, hOther₂⟩ :=
      @bucketsRefresh_copies β σ ops X Safe Ready Apart laws used.buf x used.len
      m₁ hx (after.map Prod.snd) (pairwise_map.mpr hAfter)
      (forall_mem_map.mpr fun c hc => (hLater m₁ c (.tail _ hc) (hOthers c (.tail _ hc)).2).1)
      (forall_mem_map.mpr fun c hc => (hLater m₁ c (.tail _ hc) (hOthers c (.tail _ hc)).2).2)
    have hUsed₁ := hOthers (ret, used) (.head _)
    have hFront (b : Bucket β) (hb : b ∈ before') := hOther₂ b.dev (forall_mem_map.mpr fun c hc =>
      laws.symm _ _ ((hOthers c (.tail _ hc)).1 b hb))
    have hUsed₂ := hOther₂ used.dev (forall_mem_map.mpr fun c hc => laws.symm _ _ (hUsed c hc))
    rcases hSecond : bucketsRefresh ops used.buf used.len (after.map Prod.snd) m₁ with
        ⟨second, after', m₂⟩
    rw [hSecond] at hWrites₂ hShows₂ hOther₂ hFront hUsed₂
    -- and the used one last
    obtain ⟨hReady₃, hDue₃⟩ := hLater m₂ (ret, used) (.head _) (hUsed₁.2.trans hUsed₂.2)
    obtain ⟨hWrites₃, ⟨-, hShows₃⟩, hOther₃⟩ := bucketRefresh_copies laws hx hReady₃ hDue₃
    rcases hLast : bucketRefresh ops used.buf used.len used m₂ with ⟨last, fresh, m₃⟩
    rw [hLast] at hWrites₃ hShows₃ hOther₃
    refine ⟨?_, ?_⟩
    · intro w hw
      rcases mem_append.mp hw with hw | hw
      · rcases mem_append.mp hw with hw | hw
        · exact hWrites w hw
        · exact hWrites₂ w hw
      · exact hWrites₃ w (Option.mem_toList.mp hw)
    · refine forall_mem_append.mpr ⟨fun b hb => ?_, forall_mem_cons.mpr ⟨hShows₃, fun b hb => ?_⟩⟩
      · obtain ⟨hSafe, hShow⟩ := hShows b hb
        have hKept := (hFront b hb).2
        refine (hOther₃ b.dev (laws.symm _ _ (hUsed₁.1 b hb))).2.shows x hx (hKept.safe hSafe) ?_
        exact hKept.shows x hx hSafe hShow
      · obtain ⟨hSafe, hShow⟩ := hShows₂ b hb
        exact (hOther₃ b.dev (laws.symm _ _ (hUsed₂.1 b hb))).2.shows x hx hSafe hShow

end Laws

section Load
variable {β σ : Type} {ops : BucketOps β σ} {X : Set (List UInt8)} {Safe Ready : σ → β → Prop}
  {Apart : β → β → Prop}
    (laws : KeepsCopies ops X Safe Ready Apart) {codec : DtbCodec} {magic : Nat}
  {flags : StateFlags} {m : σ} {format : BackendFormat} {buckets : List (Bucket β)}
include laws

theorem mem_presented {p : Payload} (h : p ∈ presented ops buckets m) :
    ∃ b ∈ buckets, (ops.read b.dev m).1.payload = some p := by
  induction buckets with
  | nil => cases h
  | cons b rest ih =>
    rw [presented] at h
    dsimp only at h
    rw [laws.readShared] at h
    rcases mem_append.mp h with hHead | hRest
    · exact ⟨b, (.head _), Option.mem_toList.mp hHead⟩
    · obtain ⟨b', hb', hp⟩ := ih hRest
      exact ⟨b', .tail _ hb', hp⟩

/-- A bucket whose copy needs no refresh: it is read without bitflips and accepted with `content`.
-/
def Intact (ops : BucketOps β σ) (codec : DtbCodec) (magic : Nat) (flags : StateFlags)
    (format : BackendFormat) (content : List UInt8) (m : σ) (b : Bucket β) : Prop :=
  b.needsRefresh = false ∧ ∃ buf len, (ops.read b.dev m).1 = .ok buf len ∧
    (verdict codec format magic flags (buf, len)).1 = .ok () ∧
    buf.take (verdict codec format magic flags (buf, len)).2 = content

/-- A copy that is intact is not refreshed. -/
theorem Intact.not_refreshes {content : List UInt8} {b : Bucket β}
    (h : Intact ops codec magic flags format content m b) {buf : List UInt8} {len : Nat}
    (hContent : buf.take len = content) (hLen : content.length = len)
    {format' : BackendFormat} (hFormat : format'.fresh = format.fresh) :
    refreshes buf len (bucketCheck ops (formatVerify codec) magic flags b m format').2.1 =
      false := by
  obtain ⟨hRefresh, own, ownLen, hRead, -, hSame⟩ := h
  have hShort : (verdict codec format magic flags (own, ownLen)).2 ≤ own.length :=
    (verdict_len_le _ format).trans (laws.sized b.dev m (own, ownLen) (by rw [hRead]; rfl))
  have hVerdict : (verdict codec format magic flags (own, ownLen)).2 = len := by
    rw [← hLen, ← hSame, length_take]
    omega
  have hVerify : (formatVerify codec format' magic own ownLen flags).2.1 = len := by
    rw [(formatVerify_verdict codec magic flags format' (own, ownLen)).2.1,
      verdict_congr codec magic flags hFormat, hVerdict]
  rw [hVerdict] at hSame
  unfold bucketCheck
  rcases hEq : ops.read b.dev m with ⟨read, dev, m'⟩
  rw [hEq] at hRead
  dsimp only at hRead
  subst hRead
  dsimp only
  rw [refreshes, hVerify]
  simp [hRefresh, hSame, hContent]

omit laws in
/-- A copy that is not refreshed has the length and the bytes of the content. -/
theorem shows_of_not_refreshes {buf : List UInt8} {len : Nat} {b : Bucket β} (hPos : 0 < len)
    (hLen : b.len = 0)
    (h : ¬refreshes buf len
      (bucketCheck ops (formatVerify codec) magic flags b m format).2.1 = true) :
    Shows ops (buf.take len) b.dev m := by
  rw [refreshes] at h
  simp only [decide_eq_true_eq, not_or, not_not] at h
  obtain ⟨-, hSame, hTake⟩ := h
  have hCheck := (bucketCheck_payload ops magic flags (formatVerify codec) b m format).2
  cases hPayload : (ops.read b.dev m).1.payload with
  | none =>
    have hZero : (bucketCheck ops (formatVerify codec) magic flags b m format).2.1.len =
        b.len := by
      unfold bucketCheck
      rcases hEq : ops.read b.dev m with ⟨read, dev, m'⟩
      rw [hEq] at hPayload
      cases read with
      | ok buf len | unclean buf len => cases hPayload
      | error e => rfl
    omega
  | some q =>
    rw [hPayload] at hCheck
    obtain ⟨-, hBuf, hQ, -⟩ := hCheck
    rw [hBuf] at hTake
    rw [hQ, (formatVerify_verdict codec magic flags format q).2.1] at hSame
    have hq : (verdict codec format magic flags q).2 ≤ q.2 := verdict_len_le q format
    refine ⟨q, hPayload, ?_⟩
    rw [← hTake]
    exact take_prefix_take_left (by omega)

/-- A bucket that was checked is due for a refresh with the content of the first accepted copy, or
shows it with its trailer. -/
theorem bucketCheck_due {p : Payload} (hp : p.2 ≤ p.1.length)
    (hAccepted : (verdict codec format magic flags p).1 = .ok ())
    (hx : p.1.take (verdict codec format magic flags p).2 ++
      trailer format flags (p.1.take (verdict codec format magic flags p).2) ∈ X)
    {b : Bucket β} (hReady : Ready m b.dev) (hLen : b.len = 0)
    (hAuth : trailer format flags (p.1.take (verdict codec format magic flags p).2) = [] ∨
      Intact ops codec magic flags format (p.1.take (verdict codec format magic flags p).2) m b)
    {format' : BackendFormat} (hFormat : format'.fresh = format.fresh) :
    Due ops (p.1.take (verdict codec format magic flags p).2 ++
        trailer format flags (p.1.take (verdict codec format magic flags p).2)) p.1
      (verdict codec format magic flags p).2 m
        (bucketCheck ops (formatVerify codec) magic flags b m format').2.1 := by
  have hLe : (verdict codec format magic flags p).2 ≤ p.1.length :=
    (verdict_len_le p format).trans hp
  have hOwn : (p.1.take (verdict codec format magic flags p).2).length =
      (verdict codec format magic flags p).2 := by
    rw [length_take]
    omega
  unfold Due
  split
  next hStale =>
    rcases hAuth with hNone | hIntact
    · rw [hNone, append_nil]
    · rw [hIntact.not_refreshes laws rfl hOwn hFormat] at hStale
      cases hStale
  next hFresh =>
    -- what the bucket shows it shows again
    rw [bucketCheck_dev]
    refine laws.readAgain b.dev m _ hx hReady ?_
    rcases hAuth with hNone | ⟨-, buf, len, hRead, hOk, hSame⟩
    · rw [hNone, append_nil]
      exact shows_of_not_refreshes (verdict_len_pos hAccepted) hLen hFresh
    · refine ⟨(buf, len), by rw [hRead]; rfl, ?_⟩
      exact (verdict_content_iff hp
        (laws.sized b.dev m (buf, len) (by rw [hRead]; rfl)) hAccepted).mp ⟨hOk, hSame⟩

/-- A load of a storage whose first accepted copy is `p` returns it. If no trailer is asked for, or
no bucket needs a refresh, every write of the refresh succeeds, and all copies are valid and have
the content of `p` when they are read once more. -/
theorem storageRead_copies {s : Storage β σ} {p : Payload}
    (hApart : s.buckets.Pairwise fun b c => Apart b.dev c.dev)
    (hReady : ∀ b ∈ s.buckets, Ready s.shared b.dev ∧ b.len = 0)
    (hFirst : firstAccepted codec format magic flags (presented ops s.buckets s.shared) = some p)
    (hx : p.1.take (verdict codec format magic flags p).2 ++
      trailer format flags (p.1.take (verdict codec format magic flags p).2) ∈ X)
    (hAuth : trailer format flags (p.1.take (verdict codec format magic flags p).2) = [] ∨
      ∀ b ∈ s.buckets,
      Intact ops codec magic flags format (p.1.take (verdict codec format magic flags p).2)
        s.shared b) :
    (storageRead ops (formatVerify codec) magic flags s format).ret =
    .ok (p.1, (verdict codec format magic flags p).2) ∧
      (∀ w ∈ (storageRead ops (formatVerify codec) magic flags s format).writes, w.ret = .ok ()) ∧
      CopiesRestored ops codec magic flags
        (storageRead ops (formatVerify codec) magic flags s format)
        (p.1.take (verdict codec format magic flags p).2) := by
  have hAccepted : (verdict codec format magic flags p).1 = .ok () := by
    have hOk := find?_some hFirst
    cases hVerdict : (verdict codec format magic flags p).1 with
    | error e =>
      rw [hVerdict] at hOk
      cases hOk
    | ok => rfl
  obtain ⟨b₀, -, hPresented⟩ := mem_presented laws (mem_of_find?_eq_some hFirst)
  have hp := laws.sized _ _ _ hPresented
  have hFind := bucketsCheck_find ops codec magic flags s.buckets s.shared format
  rw [hFirst] at hFind
  obtain ⟨⟨ret, used⟩, hUsed, hCopy⟩ := Option.map_eq_some_iff.mp hFind
  obtain ⟨hBuf, hLen⟩ := Prod.mk.inj hCopy
  dsimp only at hBuf hLen
  obtain ⟨hShared, hDevs, hEach⟩ :=
    @bucketsCheck_each β σ ops codec magic flags laws.readShared s.shared format s.buckets
  have hFormat : (storageRead ops (formatVerify codec) magic flags s format).format.fresh =
      format.fresh :=
    storageRead_fresh s format
  have hRet := storageRestore_ret ops s.readonly
    (bucketsCheck ops (formatVerify codec) magic flags s.buckets s.shared format).1
    (bucketsCheck ops (formatVerify codec) magic flags s.buckets s.shared format).2.1
    (bucketsCheck ops (formatVerify codec) magic flags s.buckets s.shared format).2.2
  rw [hUsed] at hRet
  have hPair :
      (bucketsCheck ops (formatVerify codec) magic flags s.buckets s.shared format).1.Pairwise
      fun c d => Apart c.2.dev d.2.dev := by
    have hMap : (s.buckets.map fun b => (ops.read b.dev s.shared).2.1).Pairwise Apart :=
      pairwise_map.mpr (hApart.imp fun {b c} h =>
        laws.symm _ _ (laws.readApart _ _ _ (laws.symm _ _ (laws.readApart _ _ _ h))))
    rw [← hDevs] at hMap
    exact pairwise_map.mp hMap
  have hCopies := storageRestore_copies laws hx hUsed hPair
    (fun c hc => by
      have hMem : c.2.dev ∈ s.buckets.map fun b => (ops.read b.dev s.shared).2.1 :=
        hDevs ▸ mem_map_of_mem hc
      obtain ⟨b, hb, hEq⟩ := mem_map.mp hMem
      rw [← hEq]
      exact laws.readReady _ _ (hReady b hb).1)
    (fun c hc => by
      obtain ⟨b, hb, format', hFresh, hEq⟩ := hEach c hc
      rw [hEq, hBuf, hLen]
      exact bucketCheck_due laws hp hAccepted hx (hReady b hb).1 (hReady b hb).2
        (hAuth.imp_right fun h => h b hb) hFresh)
    s.readonly (bucketsCheck ops (formatVerify codec) magic flags s.buckets s.shared format).2.2
  have hRead : storageRead ops (formatVerify codec) magic flags s format =
      storageRestore ops s.readonly
        (bucketsCheck ops (formatVerify codec) magic flags s.buckets s.shared format).1
        s.shared (bucketsCheck ops (formatVerify codec) magic
          flags s.buckets s.shared format).2.2 := by
    rw [storageRead]
    dsimp only
    rw [hShared]
  rw [hShared] at hRet
  rw [← hRead] at hCopies hRet
  refine ⟨?_, hCopies.1, fun b hb => ?_⟩
  · rw [hRet, ← hBuf, ← hLen]
  · obtain ⟨q, hq, hPrefix⟩ := hCopies.2 b hb
    obtain ⟨hOk, hSame⟩ := (verdict_content_iff hp (laws.sized _ _ _ hq) hAccepted).mpr hPrefix
    obtain ⟨hVerdict, hVerdictLen, -⟩ := formatVerify_verdict codec magic flags
      (storageRead ops (formatVerify codec) magic flags s format).format q
    rw [verdict_congr codec magic flags hFormat] at hVerdict hVerdictLen
    exact ⟨q, hq, hVerdict.trans hOk, by rw [hVerdictLen, hSame]⟩

end Load

end Barebox.State
