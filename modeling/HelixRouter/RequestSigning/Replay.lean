import HelixRouter.RequestSigning.Signer

namespace HelixRouter.RequestSigning

/-- One call of `verify`, on the signer or a clone of it. -/
structure Call where
  request : SignedRequest
  key : SigningKey
  now : UInt64

/-- A signer with the calls it has accepted. -/
structure History where
  signer : RequestSigner
  accepted : List Call := []

section Signed

variable [Digests]

def History.verify (h : History) (c : Call) : History :=
  let (accepts, signer) := h.signer.verify c.request c.key c.now
  { signer := signer, accepted := if accepts then h.accepted ++ [c] else h.accepted }

def run (signer : RequestSigner) (calls : List Call) : History :=
  calls.foldl History.verify { signer := signer }

/-- The checks before the nonce: the key, the window on both sides, the signature. -/
structure Genuine (window : UInt64) (c : Call) : Prop where
  key_valid : c.key.isValidAt c.now = true
  key_id : c.request.keyId = c.key.keyId
  recent : c.now.toNat ≤ c.request.timestamp.toNat + window.toNat
  not_ahead : c.request.timestamp.toNat ≤ c.now.toNat + window.toNat
  signed : c.request.signature = RequestSigner.expectedSignature c.request c.key

omit [Digests] in
theorem fold_or_eq_zero (pairs : List (UInt8 × UInt8)) (diff : UInt8) :
    pairs.foldl (fun diff xy => diff ||| (xy.1 ^^^ xy.2)) diff = 0 ↔
      diff = 0 ∧ ∀ xy ∈ pairs, xy.1 = xy.2 := by
  induction pairs generalizing diff with
  | nil => simp
  | cons xy pairs ih =>
    rw [List.foldl_cons, ih, UInt8.or_eq_zero_iff, UInt8.xor_eq_zero_iff, and_assoc]
    simp

omit [Digests] in
theorem zip_eq_iff {a b : List UInt8} (h : a.length = b.length) :
    (∀ xy ∈ a.zip b, xy.1 = xy.2) ↔ a = b := by
  induction a generalizing b with
  | nil =>
    cases b with
    | nil => simp
    | cons y b => cases h
  | cons x a ih =>
    cases b with
    | nil => cases h
    | cons y b =>
      have hl : a.length = b.length := Nat.succ.inj h
      simp only [List.zip_cons_cons, List.forall_mem_cons, ih hl, List.cons.injEq]

omit [Digests] in
/-- The comparison that takes the same time on all inputs compares. -/
theorem constantTimeEq_iff (a b : List UInt8) :
    RequestSigner.constantTimeEq a b = true ↔ a = b := by
  unfold RequestSigner.constantTimeEq
  by_cases h : a.length = b.length
  · simp only [h, decide_true, Bool.true_and, decide_eq_true_eq, fold_or_eq_zero, true_and]
    exact zip_eq_iff h
  · simp only [h, decide_false, Bool.false_and, Bool.false_eq_true, false_iff]
    intro he
    exact h (congrArg List.length he)

omit [Digests] in
theorem bytes_inj {a b : String} : bytes a = bytes b ↔ a = b := by
  unfold bytes
  rw [Array.toList_inj, ← ByteArray.ext_iff]
  exact String.toByteArray_inj

/-- A request that passes the checks is up to its nonce; any other changes nothing. -/
theorem verify_eq (signer : RequestSigner) (c : Call)
    (hfit : c.now.toNat + signer.replayWindowSecs.toNat < 2 ^ 64) :
    (Genuine signer.replayWindowSecs c ∧
      signer.verify c.request c.key c.now = signer.recordNonce c.request c.now) ∨
      ¬ Genuine signer.replayWindowSecs c ∧ signer.verify c.request c.key c.now = (false, signer) := by
  have hage : signer.replayWindowSecs < saturatingSub c.now c.request.timestamp ↔
      ¬ c.now.toNat ≤ c.request.timestamp.toNat + signer.replayWindowSecs.toNat := by
    rw [UInt64.lt_iff_toNat_lt, toNat_saturatingSub]
    omega
  have hahead : c.now + signer.replayWindowSecs < c.request.timestamp ↔
      ¬ c.request.timestamp.toNat ≤ c.now.toNat + signer.replayWindowSecs.toNat := by
    rw [UInt64.lt_iff_toNat_lt, UInt64.toNat_add, Nat.mod_eq_of_lt hfit]
    omega
  have hsigned : RequestSigner.constantTimeEq
      (bytes (RequestSigner.expectedSignature c.request c.key)) (bytes c.request.signature) = true ↔
      c.request.signature = RequestSigner.expectedSignature c.request c.key := by
    rw [constantTimeEq_iff, bytes_inj]
    exact eq_comm
  unfold RequestSigner.verify
  split
  · rename_i h
    refine Or.inr ⟨fun hg => ?_, rfl⟩
    simp [hg.key_valid, hg.key_id] at h
  rename_i hkey
  split
  · rename_i h
    exact Or.inr ⟨fun hg => hage.mp h hg.recent, rfl⟩
  rename_i hrecent
  split
  · rename_i h
    exact Or.inr ⟨fun hg => hahead.mp h hg.not_ahead, rfl⟩
  rename_i hnear
  split
  · rename_i h
    refine Or.inr ⟨fun hg => ?_, rfl⟩
    simp [hsigned.mpr hg.signed] at h
  · rename_i hsig
    simp only [Bool.not_eq_true', Bool.not_eq_false] at hsig
    simp only [Bool.or_eq_true, Bool.not_eq_true', decide_eq_true_eq, not_or, Bool.not_eq_false,
      Decidable.not_not] at hkey
    refine Or.inl ⟨⟨hkey.1, hkey.2, ?_, ?_, hsigned.mp hsig⟩, rfl⟩
    · exact Decidable.not_not.mp (mt hage.mpr hrecent)
    · exact Decidable.not_not.mp (mt hahead.mpr hnear)

/-- The cache a nonce is recorded in: purged first where it is full. -/
def purged (signer : RequestSigner) (now : UInt64) : Seen :=
  if signer.maxSeen ≤ signer.seen.entries.length then RequestSigner.live now signer.seen
  else signer.seen

section Nonces

variable {signer : RequestSigner} {request : SignedRequest} {now until_ : UInt64}
  {id : String × String}

omit [Digests] in
theorem purged_le : (purged signer now).entries.length ≤ signer.seen.entries.length := by
  unfold purged
  split
  · exact AList.retain_le
  · exact Nat.le_refl _

omit [Digests] in
theorem lookup_of_purged (h : (purged signer now).lookup id = some until_) :
    signer.seen.lookup id = some until_ := by
  unfold purged at h
  split at h
  · exact (AList.lookup_retain_eq_some.mp h).1
  · exact h

omit [Digests] in
theorem lookup_purged (h : signer.seen.lookup id = some until_) (hlive : now ≤ until_) :
    (purged signer now).lookup id = some until_ := by
  unfold purged
  split
  · exact AList.lookup_retain_eq_some.mpr ⟨h, decide_eq_true hlive⟩
  · exact h

omit [Digests] in
/-- A purge that frees no room leaves a cache full of live entries. -/
theorem full_of_purged (h : signer.maxSeen ≤ (purged signer now).entries.length) :
    signer.maxSeen ≤ (RequestSigner.live now signer.seen).entries.length := by
  unfold purged at h
  split at h
  · exact h
  · rename_i hn
    exact absurd h hn

omit [Digests] in
/-- The three ways to record a nonce: it is in use, there is no room, or it is put in. -/
theorem recordNonce_cases (signer : RequestSigner) (request : SignedRequest) (now : UInt64) :
    (∃ u, signer.seen.lookup request.id = some u ∧ now ≤ u ∧
      signer.recordNonce request now = (false, signer)) ∨
    (signer.maxSeen ≤ (RequestSigner.live now signer.seen).entries.length ∧
      signer.recordNonce request now = (false, { signer with seen := purged signer now })) ∨
    ((∀ u, signer.seen.lookup request.id = some u → u < now) ∧
      (purged signer now).entries.length < signer.maxSeen ∧
      signer.recordNonce request now = (true, { signer with
        seen := (purged signer now).insert request.id
          (saturatingAdd request.timestamp signer.replayWindowSecs) })) := by
  by_cases hused : (signer.seen.lookup request.id).any (now ≤ ·) = true
  · obtain ⟨u, hu, hle⟩ := (Option.any_eq_true _ _).mp hused
    refine Or.inl ⟨u, hu, of_decide_eq_true hle, ?_⟩
    unfold RequestSigner.recordNonce
    rw [if_pos hused]
  · have hfree : ∀ u, signer.seen.lookup request.id = some u → u < now := by
      intro u hu
      rw [hu] at hused
      simpa using hused
    right
    by_cases hroom : signer.maxSeen ≤ (purged signer now).entries.length
    · refine Or.inl ⟨full_of_purged hroom, ?_⟩
      unfold RequestSigner.recordNonce
      rw [if_neg hused]
      exact if_pos hroom
    · refine Or.inr ⟨hfree, Nat.lt_of_not_le hroom, ?_⟩
      unfold RequestSigner.recordNonce
      rw [if_neg hused]
      exact if_neg hroom

end Nonces

/-- The request is older than the window. -/
def Expired (window : UInt64) (a : Call) (now : UInt64) : Prop :=
  a.request.timestamp.toNat + window.toNat < now.toNat

/-- What the cache knows at a time no earlier than the last call: every accepted request
is remembered or expired, and nothing else is remembered. -/
structure Guards (window : UInt64) (cap : Nat) (now : UInt64) (h : History) : Prop where
  window_eq : h.signer.replayWindowSecs = window
  cap_eq : h.signer.maxSeen = cap
  remembered : ∀ a ∈ h.accepted, Expired window a now ∨
    h.signer.seen.lookup a.request.id = some (saturatingAdd a.request.timestamp window)
  accepted_only : ∀ id u, h.signer.seen.lookup id = some u → ∃ a ∈ h.accepted, a.request.id = id
  bounded : h.signer.seen.entries.length ≤ cap
  timely : ∀ a ∈ h.accepted, a.now.toNat ≤ a.request.timestamp.toNat + window.toNat
  apart : h.accepted.Pairwise fun a b => a.request.id = b.request.id → Expired window a b.now

section Steps

variable {window : UInt64} {cap : Nat} {now : UInt64} {h : History} {a c : Call}

omit [Digests] in
/-- What is remembered no longer is no younger than the window. -/
theorem expired_of_until (hu : saturatingAdd a.request.timestamp window < now) :
    Expired window a now := by
  have hlt := UInt64.lt_iff_toNat_lt.mp hu
  have hmax := toNat_le_u64Max now
  rw [toNat_saturatingAdd] at hlt
  unfold Expired
  omega

omit [Digests] in
theorem Expired.later {now' : UInt64} (he : Expired window a now) (hle : now ≤ now') :
    Expired window a now' := Nat.lt_of_lt_of_le he (UInt64.le_iff_toNat_le.mp hle)

omit [Digests] in
theorem Guards.later {now' : UInt64} (hg : Guards window cap now h) (hle : now ≤ now') :
    Guards window cap now' h :=
  { hg with remembered := fun a ha => (hg.remembered a ha).imp_left fun he => he.later hle }

omit [Digests] in
/-- An accepted request that may share its nonce with the next one has expired. -/
theorem Guards.expired (hg : Guards window cap now h) (ha : a ∈ h.accepted)
    (hfree : ∀ u, h.signer.seen.lookup a.request.id = some u → u < now) : Expired window a now := by
  rcases hg.remembered a ha with he | hl
  · exact he
  · exact expired_of_until (hfree _ hl)

omit [Digests] in
/-- A purge keeps what guards a request. -/
theorem Guards.remembered_purged (hg : Guards window cap now h) (ha : a ∈ h.accepted) :
    Expired window a now ∨ (purged h.signer now).lookup a.request.id =
      some (saturatingAdd a.request.timestamp window) := by
  rcases hg.remembered a ha with he | hl
  · exact Or.inl he
  · by_cases hlive : now ≤ saturatingAdd a.request.timestamp window
    · exact Or.inr (lookup_purged hl hlive)
    · exact Or.inl (expired_of_until (UInt64.not_le.mp hlive))

omit [Digests] in
theorem Guards.purge (hg : Guards window cap now h) :
    Guards window cap now { h with signer := { h.signer with seen := purged h.signer now } } where
  window_eq := hg.window_eq
  cap_eq := hg.cap_eq
  remembered _ ha := hg.remembered_purged ha
  accepted_only id u hl := hg.accepted_only id u (lookup_of_purged hl)
  bounded := purged_le.trans hg.bounded
  timely := hg.timely
  apart := hg.apart

omit [Digests] in
theorem Guards.accept (hg : Guards window cap c.now h)
    (htimely : c.now.toNat ≤ c.request.timestamp.toNat + window.toNat)
    (hfree : ∀ u, h.signer.seen.lookup c.request.id = some u → u < c.now)
    (hroom : (purged h.signer c.now).entries.length < cap) :
    Guards window cap c.now
      { signer := { h.signer with
          seen := (purged h.signer c.now).insert c.request.id
            (saturatingAdd c.request.timestamp h.signer.replayWindowSecs) }
        accepted := h.accepted ++ [c] } where
  window_eq := hg.window_eq
  cap_eq := hg.cap_eq
  remembered a ha := by
    rcases List.mem_append.mp ha with ha | ha
    · by_cases hid : a.request.id = c.request.id
      · exact Or.inl (hg.expired ha (hid ▸ hfree))
      · rw [AList.lookup_insert_ne hid]
        exact hg.remembered_purged ha
    · rw [List.mem_singleton.mp ha, AList.lookup_insert, hg.window_eq]
      exact Or.inr rfl
  accepted_only id u hl := by
    by_cases hid : id = c.request.id
    · exact ⟨c, by simp, hid.symm⟩
    · rw [AList.lookup_insert_ne hid] at hl
      obtain ⟨a, ha, he⟩ := hg.accepted_only id u (lookup_of_purged hl)
      exact ⟨a, by simp [ha], he⟩
  bounded := (AList.insert_length_le _ _).trans hroom
  timely a ha := by
    rcases List.mem_append.mp ha with ha | ha
    · exact hg.timely a ha
    · rw [List.mem_singleton.mp ha]
      exact htimely
  apart := by
    refine List.pairwise_append.mpr ⟨hg.apart, List.pairwise_singleton _ _, ?_⟩
    intro a ha b hb hid
    rw [List.mem_singleton.mp hb] at hid ⊢
    exact hg.expired ha (hid ▸ hfree)

/-- One call keeps the guards. -/
theorem Guards.verify (hg : Guards window cap now h) (hclock : now ≤ c.now)
    (hfit : c.now.toNat + window.toNat < 2 ^ 64) : Guards window cap c.now (h.verify c) := by
  have hg := hg.later hclock
  have hw := hg.window_eq
  subst hw
  unfold History.verify
  rcases verify_eq h.signer c hfit with ⟨hgen, he⟩ | ⟨-, he⟩
  · rw [he]
    rcases recordNonce_cases h.signer c.request c.now with ⟨u, -, -, he⟩ | ⟨-, he⟩ | ⟨hfree, hroom, he⟩
    · rw [he]
      exact hg
    · rw [he]
      exact hg.purge
    · rw [he]
      exact hg.accept hgen.recent hfree (hg.cap_eq ▸ hroom)
  · rw [he]
    exact hg

/-- A genuine request with a fresh nonce is accepted, or the cache is full of entries
that still guard accepted requests. -/
theorem Guards.open (hg : Guards window cap now h) (hfit : c.now.toNat + window.toNat < 2 ^ 64)
    (hgen : Genuine window c) (hfresh : ∀ a ∈ h.accepted, a.request.id ≠ c.request.id) :
    (h.signer.verify c.request c.key c.now).1 = true ∨
      cap ≤ (RequestSigner.live c.now h.signer.seen).entries.length := by
  have hw := hg.window_eq
  subst hw
  rcases verify_eq h.signer c hfit with ⟨-, he⟩ | ⟨hn, -⟩
  · rcases recordNonce_cases h.signer c.request c.now with ⟨u, hu, -⟩ | ⟨hfull, -⟩ | ⟨-, -, hr⟩
    · obtain ⟨a, ha, hid⟩ := hg.accepted_only _ u hu
      exact absurd hid (hfresh a ha)
    · exact Or.inr (hg.cap_eq ▸ hfull)
    · exact Or.inl (by rw [he, hr])
  · exact absurd hgen hn

end Steps

omit [Digests] in
theorem guards_new (window : UInt64) (max : Nat) : Guards window (Nat.max max 1) 0
    { signer := (RequestSigner.withReplayWindow window).withMaxSeenNonces max } where
  window_eq := rfl
  cap_eq := rfl
  remembered _ ha := nomatch ha
  accepted_only _ _ h := nomatch h
  bounded := Nat.zero_le _
  timely _ ha := nomatch ha
  apart := List.Pairwise.nil

/-- The clock of a run never goes back and stays a window below its limit. -/
structure Clocked (window : UInt64) (calls : List Call) : Prop where
  monotone : calls.Pairwise fun a b => a.now ≤ b.now
  fits : ∀ c ∈ calls, c.now.toNat + window.toNat < 2 ^ 64

/-- From one call to a run of calls. -/
theorem guards_foldl {window now : UInt64} {cap : Nat} {h : History} {calls : List Call}
    (hg : Guards window cap now h) (hc : Clocked window calls) (hnow : ∀ c ∈ calls, now ≤ c.now) :
    ∃ last, Guards window cap last (calls.foldl History.verify h) ∧
      ∀ c, (∀ b ∈ calls, b.now ≤ c) → now ≤ c → last ≤ c := by
  induction calls generalizing now h with
  | nil => exact ⟨now, hg, fun _ _ hc => hc⟩
  | cons c calls ih =>
    obtain ⟨hfirst, hrest⟩ := List.pairwise_cons.mp hc.monotone
    have hstep := hg.verify (hnow c (by simp)) (hc.fits c (by simp))
    obtain ⟨last, hlast, hle⟩ := ih hstep
      ⟨hrest, fun b hb => hc.fits b (List.mem_cons_of_mem c hb)⟩ hfirst
    refine ⟨last, hlast, fun t ht _ => hle t (fun b hb => ht b (by simp [hb])) (ht c (by simp))⟩

/-- A new signer, of any window and cap, and the calls made on it and its clones. -/
def served (window : UInt64) (max : Nat) (calls : List Call) : History :=
  run ((RequestSigner.withReplayWindow window).withMaxSeenNonces max) calls

theorem served_guards {window : UInt64} (max : Nat) {calls : List Call}
    (hc : Clocked window calls) : ∃ last, Guards window (Nat.max max 1) last
      (served window max calls) ∧ ∀ c, (∀ b ∈ calls, b.now ≤ c) → last ≤ c := by
  obtain ⟨last, hg, hle⟩ := guards_foldl (guards_new window max) hc fun c _ => UInt64.zero_le
  exact ⟨last, hg, fun c hb => hle c hb UInt64.zero_le⟩

/-- What replay protection promises of a run: no request is accepted twice, a nonce is
accepted again only when the request it guarded is too old, the cache holds nothing but
accepted requests and stays within its cap, and a genuine request with a fresh nonce is
accepted unless the cache is full of live entries. -/
structure Protected (window : UInt64) (max : Nat) (calls : List Call) : Prop where
  once : (served window max calls).accepted.Pairwise fun a b => a.request ≠ b.request
  apart : (served window max calls).accepted.Pairwise fun a b =>
    a.request.id = b.request.id → Expired window a b.now
  bounded : (served window max calls).signer.seen.entries.length ≤ Nat.max max 1
  accepted_only : ∀ id u, (served window max calls).signer.seen.lookup id = some u →
    ∃ a ∈ (served window max calls).accepted, a.request.id = id
  isOpen : ∀ pre c post, calls = pre ++ c :: post → Genuine window c →
    (∀ a ∈ (served window max pre).accepted, a.request.id ≠ c.request.id) →
    ((served window max pre).signer.verify c.request c.key c.now).1 = true ∨
      Nat.max max 1 ≤
        (RequestSigner.live c.now (served window max pre).signer.seen).entries.length

theorem replay_protected (window : UInt64) (max : Nat) (calls : List Call)
    (hc : Clocked window calls) : Protected window max calls := by
  obtain ⟨last, hg, -⟩ := served_guards max hc
  have htimely : ∀ a ∈ (served window max calls).accepted,
      a.now.toNat ≤ a.request.timestamp.toNat + window.toNat := hg.timely
  refine ⟨?_, hg.apart, hg.bounded, hg.accepted_only, ?_⟩
  · apply hg.apart.imp_of_mem
    intro a b _ hb hap heq
    have hexp : Expired window a b.now := hap (congrArg SignedRequest.id heq)
    have hin := htimely b hb
    unfold Expired at hexp
    rw [heq] at hexp
    omega
  · rintro pre c post rfl hgen hfresh
    obtain ⟨hpre, hpost, hcross⟩ := List.pairwise_append.mp hc.monotone
    have hclocked : Clocked window pre := ⟨hpre, fun b hb => hc.fits b (by simp [hb])⟩
    obtain ⟨last, hg, -⟩ := served_guards max hclocked
    exact hg.open (hc.fits c (by simp)) hgen hfresh

/-- A request that is signed with a valid key passes every check but the nonce's. -/
theorem sign_genuine (window : UInt64) (signer : RequestSigner) (payload : List UInt8)
    (key : SigningKey) (now : UInt64) (nonce : String) (hkey : key.isValidAt now = true) :
    Genuine window ⟨signer.sign payload key now nonce, key, now⟩ :=
  ⟨hkey, rfl, Nat.le_add_right _ _, Nat.le_add_right _ _, rfl⟩

end Signed

/-- Digests that can be run. -/
instance plainDigests : Digests where
  sha256 data := data
  hmacSha256 key message := key ++ message

/-- One signed request that is verified at once, and again ten seconds later. -/
def replayed : List Call :=
  let key : SigningKey := { keyId := "k", secret := [7], createdAt := 0 }
  let request := (RequestSigner.withReplayWindow 300).sign [1] key 1000 "n"
  [⟨request, key, 1000⟩, ⟨request, key, 1010⟩]

theorem replay_refused : Protected 300 8 replayed ∧
    (served 300 8 replayed).accepted.map (·.now) = [1000] := by
  refine ⟨replay_protected 300 8 replayed ⟨by decide, by decide⟩, by decide +kernel⟩

section Cuts

variable {α : Type} {c : α} {a b a' b' : List α}

/-- Where the first separator stands is fixed by parts that have none. -/
theorem cut_first (ha : c ∉ a) (ha' : c ∉ a') (h : a ++ c :: b = a' ++ c :: b') :
    a = a' ∧ b = b' := by
  induction a generalizing a' with
  | nil =>
    cases a' with
    | nil => exact ⟨rfl, (List.cons.inj h).2⟩
    | cons x a' =>
      obtain ⟨rfl, -⟩ := List.cons.inj h
      exact absurd List.mem_cons_self ha'
  | cons x a ih =>
    cases a' with
    | nil =>
      obtain ⟨rfl, -⟩ := List.cons.inj h
      exact absurd List.mem_cons_self ha
    | cons y a' =>
      obtain ⟨rfl, htail⟩ := List.cons.inj h
      obtain ⟨rfl, hb⟩ :=
        ih (List.not_mem_of_not_mem_cons ha) (List.not_mem_of_not_mem_cons ha') htail
      exact ⟨rfl, hb⟩

/-- And so is the last one. -/
theorem cut_last (hb : c ∉ b) (hb' : c ∉ b') (h : a ++ c :: b = a' ++ c :: b') :
    a = a' ∧ b = b' := by
  have hrev := congrArg List.reverse h
  simp only [List.reverse_append, List.reverse_cons, List.append_assoc, List.singleton_append]
    at hrev
  obtain ⟨hback, hfront⟩ := cut_first (by simpa using hb) (by simpa using hb') hrev
  exact ⟨List.reverse_injective hfront, List.reverse_injective hback⟩

end Cuts

theorem toList_toHex (data : List UInt8) : (toHex data).toList =
    data.flatMap fun b => [(b.toNat / 16).digitChar, (b.toNat % 16).digitChar] := by
  simp [toHex]

theorem digitChar_ne_newline (n : Nat) : n.digitChar ≠ '\n' :=
  Nat.digitChar_ne '\n' (by decide)

theorem newline_notMem_toHex (data : List UInt8) : '\n' ∉ (toHex data).toList := by
  rw [toList_toHex, List.mem_flatMap]
  rintro ⟨b, -, hb⟩
  simp [(digitChar_ne_newline _).symm] at hb

theorem digitChar_inj : ∀ m < 16, ∀ n < 16, m.digitChar = n.digitChar → m = n := by decide

/-- Two digits for each byte tell the bytes. -/
theorem toHex_inj {a b : List UInt8} (h : toHex a = toHex b) : a = b := by
  have hlist := congrArg String.toList h
  rw [toList_toHex, toList_toHex] at hlist
  clear h
  induction a generalizing b with
  | nil =>
    cases b with
    | nil => rfl
    | cons y b => simp at hlist
  | cons x a ih =>
    cases b with
    | nil => simp at hlist
    | cons y b =>
      simp only [List.flatMap_cons, List.cons_append, List.nil_append, List.cons.injEq] at hlist
      obtain ⟨hhigh, hlow, hrest⟩ := hlist
      have hx := x.toNat_lt
      have hy := y.toNat_lt
      have hdiv := digitChar_inj _ (by omega) _ (by omega) hhigh
      have hmod := digitChar_inj _ (by omega) _ (by omega) hlow
      have hbyte : x = y := UInt8.toNat_inj.mp (by omega)
      rw [hbyte, ih hrest]

theorem toList_timestamp (t : UInt64) : (toString t).toList = Nat.toDigits 10 t.toNat :=
  Nat.toList_repr

theorem newline_notMem_timestamp (t : UInt64) : '\n' ∉ (toString t).toList := by
  rw [toList_timestamp]
  intro h
  have := Nat.isDigit_of_mem_toDigits (by decide) (by decide) h
  revert this
  decide

theorem timestamp_inj {t t' : UInt64} (h : (toString t).toList = (toString t').toList) : t = t' := by
  rw [toList_timestamp, toList_timestamp] at h
  have hval := congrArg (fun l => Nat.ofDigitChars 10 l 0) h
  simp only [Nat.ofDigitChars_ten_toDigits] at hval
  exact UInt64.toNat_inj.mp hval

section Signed

variable [Digests] {a b : SignedRequest} {key : SigningKey}

/-- The timestamp ends at the first newline after the key id, the digest starts at the last. -/
theorem canonicalString_eq_iff (hkey : a.keyId = b.keyId) :
    a.canonicalString = b.canonicalString ↔ a.timestamp = b.timestamp ∧ a.nonce = b.nonce ∧
      Digests.sha256 a.payload = Digests.sha256 b.payload := by
  constructor
  · intro h
    have hlist := congrArg String.toList h
    simp only [SignedRequest.canonicalString, hkey, String.toList_append, List.append_assoc]
      at hlist
    have hfields := List.append_cancel_left (List.append_cancel_left hlist)
    obtain ⟨htime, hrest⟩ := cut_first (newline_notMem_timestamp _) (newline_notMem_timestamp _)
      hfields
    obtain ⟨hnonce, hdigest⟩ := cut_last (newline_notMem_toHex _) (newline_notMem_toHex _) hrest
    exact ⟨timestamp_inj htime, String.toList_inj.mp hnonce,
      toHex_inj (String.toList_inj.mp hdigest)⟩
  · rintro ⟨htime, hnonce, hdigest⟩
    simp only [SignedRequest.canonicalString, hkey, htime, hnonce, hdigest]

/-- Two messages with one tag under a secret. -/
def Collides (secret m m' : List UInt8) : Prop :=
  m ≠ m' ∧ Digests.hmacSha256 secret m = Digests.hmacSha256 secret m'

theorem verify_signed {signer : RequestSigner} {now : UInt64}
    (h : (signer.verify b key now).1 = true) :
    b.keyId = key.keyId ∧ b.signature = RequestSigner.expectedSignature b key := by
  unfold RequestSigner.verify at h
  split at h
  · cases h
  rename_i hkey
  split at h
  · cases h
  split at h
  · cases h
  split at h
  · cases h
  rename_i hsig
  simp only [Bool.or_eq_true, Bool.not_eq_true', decide_eq_true_eq, not_or, Bool.not_eq_false,
    Decidable.not_not] at hkey
  simp only [Bool.not_eq_true', Bool.not_eq_false, constantTimeEq_iff, bytes_inj] at hsig
  exact ⟨hkey.2, hsig.symm⟩

/-- Under one key id the canonical string tells timestamp, nonce and digest of the payload. What
is signed for a request is so no message of one that differs from it in one of these, and the
other can be verified with its signature only where two messages have one tag. -/
theorem fields_unambiguous (a b : SignedRequest) (hkey : a.keyId = b.keyId) :
    (a.canonicalString = b.canonicalString → a.timestamp = b.timestamp ∧ a.nonce = b.nonce ∧
      Digests.sha256 a.payload = Digests.sha256 b.payload) ∧
    (∀ (signer : RequestSigner) (key : SigningKey) (now : UInt64),
      b.signature = RequestSigner.expectedSignature a key →
      (signer.verify b key now).1 = true →
      (a.timestamp = b.timestamp ∧ a.nonce = b.nonce ∧
        Digests.sha256 a.payload = Digests.sha256 b.payload) ∨
      Collides key.secret (bytes a.canonicalString) (bytes b.canonicalString)) := by
  refine ⟨(canonicalString_eq_iff hkey).mp, fun signer key now hsig haccepted => ?_⟩
  by_cases hsame : a.canonicalString = b.canonicalString
  · exact .inl ((canonicalString_eq_iff hkey).mp hsame)
  · refine .inr ⟨mt bytes_inj.mp hsame, toHex_inj ?_⟩
    exact hsig.symm.trans (verify_signed haccepted).2

end Signed

/-- The digest of the empty payload, and the tag of the request below under the key `[1, 2, 3]`. -/
@[reducible] def emptyDigests : Digests where
  sha256 _ := [227, 176, 196, 66, 152, 252, 28, 20, 154, 251, 244, 200, 153, 111, 185, 36,
    39, 174, 65, 228, 100, 155, 147, 76, 164, 149, 153, 27, 120, 82, 184, 85]
  hmacSha256 _ _ := [81, 117, 45, 30, 13, 155, 52, 120, 100, 11, 68, 182, 177, 44, 123, 15,
    171, 233, 203, 158, 227, 238, 27, 83, 62, 209, 222, 213, 97, 231, 250, 171]

def emptyRequest : SignedRequest where
  payload := []
  signature := ""
  keyId := "edge"
  timestamp := 1700000000
  nonce := "1\n2"

def emptySigned : SignedRequest := { emptyRequest with signature := toHex (emptyDigests.hmacSha256 [] []) }

theorem fields_unambiguous_empty : emptyRequest.timestamp = emptySigned.timestamp ∧
    emptyRequest.nonce = emptySigned.nonce ∧
      emptyDigests.sha256 emptyRequest.payload = emptyDigests.sha256 emptySigned.payload :=
  (@fields_unambiguous emptyDigests emptyRequest emptySigned rfl).1 rfl

end HelixRouter.RequestSigning
