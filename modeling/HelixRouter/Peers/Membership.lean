import HelixRouter.Containers.Retain
import HelixRouter.Peers.PeerRegistry
import HelixRouter.Runs.Debounce
import Mathlib.Tactic.Common

namespace HelixRouter.Peers

open Runs

structure Check where
  healthy : Bool
  latencyMs : Option UInt64
  atMs : UInt64

/-- A peer since it joined, with every check of it. -/
structure Member where
  info : PeerInfo
  joinedMs : UInt64
  checks : List Check := []

namespace Member

variable (p : Member)

def outcomes : List Bool := p.checks.map (·.healthy)

def check (c : Check) : Member := { p with checks := p.checks ++ [c] }

/-- Nobody has found it down since it was last found up. -/
def Up : Prop := p.outcomes.getLast?.getD true = true

/-- Its last checks in a row have failed, as many as that. -/
def Lost (failures : UInt32) : Prop := List.replicate failures.toNat false <:+ p.outcomes

/-- The latency that its last check has measured, if it has. -/
def latency : Option UInt64 := p.checks.getLast?.bind (·.latencyMs)

/-- Peers without a latency come last. -/
def latencyRank : Nat := (p.latency.map (·.toNat)).getD (UInt64.size - 1)

/-- The record of a peer, from its checks alone. -/
def health : PeerHealth where
  peerId := p.info.peerId
  isHealthy := p.outcomes.getLast?.getD true
  lastCheckMs := (p.checks.getLast?.map (·.atMs)).getD p.joinedMs
  consecutiveFailures := UInt32.ofNat (min (streak false p.outcomes) u32Max)
  latencyMs := p.latency

instance (failures : UInt32) : Decidable (p.Lost failures) :=
  inferInstanceAs (Decidable (List.replicate failures.toNat false <:+ p.outcomes))

@[simp] theorem outcomes_check (c : Check) :
    (p.check c).outcomes = p.outcomes ++ [c.healthy] := by
  simp [outcomes, check]

@[simp] theorem check_info (c : Check) : (p.check c).info = p.info := rfl

theorem toNat_capped (n : Nat) : (UInt32.ofNat (min n u32Max)).toNat = min n u32Max := by
  rw [UInt32.toNat_ofNat', Nat.mod_eq_of_lt]
  exact Nat.lt_of_le_of_lt (Nat.min_le_right ..) (by decide)

theorem saturatingSucc_capped (n : Nat) :
    saturatingSucc (UInt32.ofNat (min n u32Max)) = UInt32.ofNat (min (n + 1) u32Max) := by
  rw [saturatingSucc, toNat_capped]
  congr 1
  omega

theorem health_check (c : Check) :
    (p.check c).health = p.health.record c.healthy c.latencyMs c.atMs := by
  cases hc : c.healthy with
  | true => simp [health, PeerHealth.record, latency, hc, check, outcomes]
  | false =>
    simp [health, PeerHealth.record, latency, hc, saturatingSucc_capped]
    simp [check]

/-- The counter stops at its greatest value, which no threshold exceeds. -/
theorem lost_iff (failures : UInt32) :
    failures ≤ p.health.consecutiveFailures ↔ p.Lost failures := by
  have hlt : failures.toNat < 4294967296 := failures.toNat_lt
  rw [Lost, replicate_suffix_iff, UInt32.le_iff_toNat_le, health, toNat_capped, u32Max]
  omega

end Member

/-- What the registry is for: who is a member, and what was found of it. -/
abbrev Membership := AList (fun _ : String => Member)

namespace Membership

def apply (m : Membership) : Op → Membership
  | .announce peer nowMs =>
    match m.lookup peer.peerId with
    | some p => m.insert peer.peerId { p with info := peer }
    | none =>
      if m.entries.length < 256 then m.insert peer.peerId { info := peer, joinedMs := nowMs }
      else m
  | .depart peerId => m.erase peerId
  | .recordHealthCheck peerId healthy latencyMs nowMs =>
    match m.lookup peerId with
    | some p => m.insert peerId (p.check ⟨healthy, latencyMs, nowMs⟩)
    | none => m
  | .evictUnhealthy _ config => m.retain fun _ p => !decide (p.Lost config.removalAfterFailures)

def after (ops : List Op) : Membership := ops.foldl apply ∅

end Membership

section Story

variable {m : Membership} {id : String} {p : Member}

def Op.checkOf (id : String) : Op → Option Check
  | .recordHealthCheck peerId healthy latencyMs nowMs =>
    if peerId = id then some ⟨healthy, latencyMs, nowMs⟩ else none
  | _ => none

def Op.infoOf (id : String) : Op → Option PeerInfo
  | .announce peer _ => if peer.peerId = id then some peer else none
  | _ => none

/-- What the calls since a peer's first announcement say of it. -/
structure Story (ops : List Op) (id : String) (p : Member) (before : List Op) (first : PeerInfo)
    (rest : List Op) : Prop where
  split : ops = before ++ .announce first p.joinedMs :: rest
  named : first.peerId = id
  new : id ∉ Membership.after before
  stayed : .depart id ∉ rest
  checks : p.checks = rest.filterMap (Op.checkOf id)
  info : p.info = ((rest.filterMap (Op.infoOf id)).getLast?).getD first

/-- A member was one before, and what the call says of it is added, or it has just joined. -/
theorem Membership.lookup_apply {op : Op} (h : (m.apply op).lookup id = some p) :
    (∃ q, m.lookup id = some q ∧ op ≠ .depart id ∧ p.joinedMs = q.joinedMs ∧
      p.checks = q.checks ++ (op.checkOf id).toList ∧ p.info = (op.infoOf id).getD q.info) ∨
    (id ∉ m ∧ ∃ first, op = .announce first p.joinedMs ∧ first.peerId = id ∧
      p.checks = [] ∧ p.info = first) := by
  cases op with
  | announce peer nowMs =>
    simp only [apply] at h
    by_cases hid : peer.peerId = id
    · subst hid
      cases hq : m.lookup peer.peerId with
      | some q =>
        simp only [hq, AList.lookup_insert, Option.some.injEq] at h
        exact .inl ⟨q, rfl, nofun, by simp [← h], by simp [← h, Op.checkOf],
          by simp [← h, Op.infoOf]⟩
      | none =>
        simp only [hq] at h
        split at h
        · rw [AList.lookup_insert, Option.some.injEq] at h
          exact .inr ⟨AList.lookup_eq_none.mp hq, peer, by simp [← h], rfl, by simp [← h],
            by simp [← h]⟩
        · simp [hq] at h
    · have hq : m.lookup id = some p := by
        split at h
        · rwa [AList.lookup_insert_ne (Ne.symm hid)] at h
        · split at h
          · rwa [AList.lookup_insert_ne (Ne.symm hid)] at h
          · exact h
      exact .inl ⟨p, hq, nofun, rfl, by simp [Op.checkOf], by simp [Op.infoOf, hid]⟩
  | depart peerId =>
    by_cases hid : peerId = id
    · simp [apply, hid] at h
    · rw [apply, AList.lookup_erase_ne (Ne.symm hid)] at h
      exact .inl ⟨p, h, by simpa using hid, rfl, by simp [Op.checkOf], by simp [Op.infoOf]⟩
  | recordHealthCheck peerId healthy latencyMs nowMs =>
    simp only [apply] at h
    by_cases hid : peerId = id
    · subst hid
      cases hq : m.lookup peerId with
      | some q =>
        simp only [hq, AList.lookup_insert, Option.some.injEq] at h
        exact .inl ⟨q, rfl, nofun, by simp [← h, Member.check],
          by simp [← h, Member.check, Op.checkOf], by simp [← h, Op.infoOf]⟩
      | none => simp [hq] at h
    · have hq : m.lookup id = some p := by
        split at h
        · rwa [AList.lookup_insert_ne (Ne.symm hid)] at h
        · exact h
      exact .inl ⟨p, hq, nofun, rfl, by simp [Op.checkOf, hid], by simp [Op.infoOf]⟩
  | evictUnhealthy order config =>
    rw [apply, AList.lookup_retain_eq_some] at h
    exact .inl ⟨p, h.1, nofun, rfl, by simp [Op.checkOf], by simp [Op.infoOf]⟩

theorem Membership.after_concat (ops : List Op) (op : Op) :
    after (ops ++ [op]) = (after ops).apply op := by
  simp [after]

theorem Story.concat {ops before rest : List Op} {first : PeerInfo} {op : Op} {q : Member}
    (h : Story ops id q before first rest) (hop : op ≠ .depart id)
    (hjoined : p.joinedMs = q.joinedMs) (hchecks : p.checks = q.checks ++ (op.checkOf id).toList)
    (hinfo : p.info = (op.infoOf id).getD q.info) :
    Story (ops ++ [op]) id p before first (rest ++ [op]) where
  split := by simp [h.split, hjoined]
  named := h.named
  new := h.new
  stayed hmem := by
    rcases List.mem_append.mp hmem with hrest | hlast
    · exact h.stayed hrest
    · exact hop (List.mem_singleton.mp hlast).symm
  checks := by
    rw [hchecks, h.checks, List.filterMap_append]
    cases hc : op.checkOf id <;> simp [hc]
  info := by
    rw [hinfo, h.info, List.filterMap_append]
    cases hc : op.infoOf id <;> simp [hc]

/-- A member's story begins when it was announced last without being a member. -/
theorem Membership.exists_story (ops : List Op) (hp : (after ops).lookup id = some p) :
    ∃ before first rest, Story ops id p before first rest := by
  induction ops using List.reverseRecOn generalizing p with
  | nil => simp [after] at hp
  | append_singleton ops op ih =>
    rw [after_concat] at hp
    rcases lookup_apply hp with ⟨q, hq, hop, hjoined, hchecks, hinfo⟩ |
      ⟨hnew, first, rfl, hnamed, hchecks, hinfo⟩
    · obtain ⟨before, first, rest, hstory⟩ := ih hq
      exact ⟨before, first, rest ++ [op], hstory.concat hop hjoined hchecks hinfo⟩
    · exact ⟨ops, first, [], rfl, hnamed, hnew, List.not_mem_nil, hchecks, hinfo⟩

/-- What takes another's place does not make a membership longer. -/
theorem Membership.length_insert_of_lookup {q : Member} (h : m.lookup id = some q) (p : Member) :
    (m.insert id p).entries.length = m.entries.length := by
  rw [(AList.entries_perm_of_lookup h).length_eq, AList.entries_insert]
  rfl

theorem Membership.room_apply (h : m.entries.length ≤ 256) (op : Op) :
    (m.apply op).entries.length ≤ 256 := by
  cases op with
  | announce peer nowMs =>
    simp only [apply]
    split
    · rename_i q hq
      exact (length_insert_of_lookup hq _).trans_le h
    · split
      · exact (AList.insert_length_le ..).trans (by omega)
      · exact h
  | depart peerId => exact (List.kerase_sublist peerId m.entries).length_le.trans h
  | recordHealthCheck peerId healthy latencyMs nowMs =>
    simp only [apply]
    split
    · rename_i q hq
      exact (length_insert_of_lookup hq _).trans_le h
    · exact h
  | evictUnhealthy order config => exact AList.retain_le.trans h

theorem Membership.room (ops : List Op) : (after ops).entries.length ≤ 256 := by
  induction ops using List.reverseRecOn with
  | nil => exact Nat.zero_le _
  | append_singleton ops op ih =>
    rw [after_concat]
    exact room_apply ih op

end Story

/-- The information that a member was announced with last. -/
def Membership.Knows (m : Membership) (info : PeerInfo) : Prop :=
  ∃ p, m.lookup info.peerId = some p ∧ p.info = info

/-- Who of the members offers a service and was not found down. -/
def Membership.Serves (m : Membership) (service : String) (p : Member) : Prop :=
  m.lookup p.info.peerId = some p ∧ p.info.serviceType = service ∧ p.Up

variable {s : PeerRegistry} {m : Membership} {id : String} {p : Member}

theorem PeerRegistry.nodup_evicted (s : PeerRegistry) (order : HealthOrder)
    (config : DiscoveryConfig) : (s.evictUnhealthy order config).1.Nodup := by
  have hkeys : ((order.arrange s.health.entries).map (·.1)).Nodup :=
    ((order.perm _).map _).nodup_iff.mpr s.health.keys_nodup
  exact hkeys.sublist (List.filter_sublist.map _)

theorem lookup_insert_ite {β : Type} (s : AList fun _ : String => β) (id : String) (b : β)
    (k : String) : (s.insert id b).lookup k = if k = id then some b else s.lookup k :=
  (congrFun (AList.lookup_insert_eq s id b) k).trans (Function.update_apply ..)

theorem lookup_erase_ite {β : Type} (s : AList fun _ : String => β) (id k : String) :
    (s.erase id).lookup k = if k = id then none else s.lookup k :=
  (congrFun (AList.lookup_erase_eq s id) k).trans (Function.update_apply ..)

/-- The two maps of the registry say of each id what its membership does. -/
structure Refines (s : PeerRegistry) (m : Membership) : Prop where
  peers : ∀ id, s.peers.lookup id = (m.lookup id).map Member.info
  health : ∀ id, s.health.lookup id = (m.lookup id).map Member.health
  own : ∀ id p, m.lookup id = some p → p.info.peerId = id

namespace Refines

theorem mem_iff (h : Refines s m) : id ∈ s.peers ↔ id ∈ m := by
  rw [← AList.lookup_isSome, ← AList.lookup_isSome, h.peers, Option.isSome_map]

theorem length_eq (h : Refines s m) : s.peers.entries.length = m.entries.length := by
  have hperm : s.peers.keys.Perm m.keys := by
    apply (List.perm_ext_iff_of_nodup s.peers.keys_nodup m.keys_nodup).mpr
    intro id
    rw [← AList.mem_keys, ← AList.mem_keys, h.mem_iff]
  simpa [AList.keys, List.keys] using hperm.length_eq

/-- An id gets a member, in both maps. -/
theorem put {s' : PeerRegistry} (h : Refines s m) (hp : p.info.peerId = id)
    (hpeers : ∀ k, s'.peers.lookup k = if k = id then some p.info else s.peers.lookup k)
    (hhealth : ∀ k, s'.health.lookup k = if k = id then some p.health else s.health.lookup k) :
    Refines s' (m.insert id p) where
  peers k := by
    rw [hpeers, lookup_insert_ite, apply_ite (Option.map Member.info), h.peers]
    rfl
  health k := by
    rw [hhealth, lookup_insert_ite, apply_ite (Option.map Member.health), h.health]
    rfl
  own k q hq := by
    rw [lookup_insert_ite] at hq
    split at hq
    · rename_i hk
      cases hq
      rw [hp, hk]
    · exact h.own k q hq

theorem depart (h : Refines s m) (id : String) : Refines (s.depart id) (m.erase id) where
  peers k := by
    rw [PeerRegistry.depart, lookup_erase_ite, lookup_erase_ite,
      apply_ite (Option.map Member.info), h.peers]
    rfl
  health k := by
    rw [PeerRegistry.depart, lookup_erase_ite, lookup_erase_ite,
      apply_ite (Option.map Member.health), h.health]
    rfl
  own k q hq := by
    rw [lookup_erase_ite] at hq
    split at hq
    · cases hq
    · exact h.own k q hq

theorem congr {m' : Membership} (h : Refines s m) (hm : ∀ id, m'.lookup id = m.lookup id) :
    Refines s m' where
  peers id := by rw [hm, h.peers]
  health id := by rw [hm, h.health]
  own id q hq := h.own id q (hm id ▸ hq)

theorem announce (h : Refines s m) (peer : PeerInfo) (nowMs : UInt64) :
    Refines (s.announce peer nowMs) (m.apply (.announce peer nowMs)) := by
  unfold PeerRegistry.announce
  simp only [Membership.apply, h.mem_iff, h.length_eq]
  cases hp : m.lookup peer.peerId with
  | some p =>
    rw [if_pos (AList.mem_of_lookup hp)]
    refine h.put rfl (lookup_insert_ite _ _ _) fun k => ?_
    -- the checks stay as they were, and so does the record
    split
    · rename_i hk
      rw [hk, h.health, hp, Option.map_some, Member.health, h.own _ _ hp]
      rfl
    · rfl
  | none =>
    rw [if_neg (AList.lookup_eq_none.mp hp)]
    by_cases hroom : m.entries.length < 256
    · rw [if_neg (Nat.not_le.mpr hroom)]
      simp only [if_pos hroom]
      exact h.put rfl (lookup_insert_ite _ _ _) (lookup_insert_ite _ _ _)
    · rw [if_pos (Nat.le_of_not_lt hroom)]
      simp only [if_neg hroom]
      exact h

theorem recordHealthCheck (h : Refines s m) (id : String) (healthy : Bool)
    (latencyMs : Option UInt64) (nowMs : UInt64) :
    Refines (s.recordHealthCheck id healthy latencyMs nowMs)
      (m.apply (.recordHealthCheck id healthy latencyMs nowMs)) := by
  simp only [PeerRegistry.recordHealthCheck, Membership.apply, h.health]
  cases hp : m.lookup id with
  | none => exact h
  | some p =>
    simp only [Option.map_some]
    refine h.put (h.own id p hp) (fun k => ?_) fun k => ?_
    · split
      · rename_i hk
        rw [hk, h.peers, hp]
        rfl
      · rfl
    · rw [Member.health_check]
      exact lookup_insert_ite _ _ _ k

/-- Who is evicted: whose last checks have all failed, as many as the configuration says. -/
theorem mem_evicted (h : Refines s m) (order : HealthOrder) (config : DiscoveryConfig) :
    id ∈ (s.evictUnhealthy order config).1 ↔
      ∃ p, m.lookup id = some p ∧ p.Lost config.removalAfterFailures := by
  simp only [PeerRegistry.evictUnhealthy, List.mem_map, List.mem_filter,
    IterationOrder.mem_arrange, decide_eq_true_eq]
  constructor
  · rintro ⟨⟨k, record⟩, ⟨hentry, hle⟩, rfl⟩
    have hlookup := (h.health k).symm.trans (AList.mem_lookup_iff.mpr hentry)
    obtain ⟨p, hp, rfl⟩ := Option.map_eq_some_iff.mp hlookup
    exact ⟨p, hp, (p.lost_iff _).mp hle⟩
  · rintro ⟨p, hp, hlost⟩
    refine ⟨⟨id, p.health⟩, ⟨AList.mem_lookup_iff.mp ?_, (p.lost_iff _).mpr hlost⟩, rfl⟩
    rw [Option.mem_def, h.health, hp, Option.map_some]

theorem foldl_depart (h : Refines s m) (ids : List String) :
    Refines (ids.foldl PeerRegistry.depart s) (ids.foldl (fun m id => m.erase id) m) := by
  induction ids generalizing s m with
  | nil => exact h
  | cons id ids ih => exact ih (h.depart id)

theorem lookup_foldl_erase (ids : List String) (m : Membership) (k : String) :
    (ids.foldl (fun m id => m.erase id) m).lookup k = if k ∈ ids then none else m.lookup k := by
  induction ids generalizing m with
  | nil => simp
  | cons id ids ih =>
    rw [List.foldl_cons, ih, lookup_erase_ite]
    by_cases hk : k = id
    · simp [hk]
    · simp [hk]

theorem evictUnhealthy (h : Refines s m) (order : HealthOrder) (config : DiscoveryConfig) :
    Refines (s.evictUnhealthy order config).2 (m.apply (.evictUnhealthy order config)) := by
  apply (h.foldl_depart (s.evictUnhealthy order config).1).congr
  intro id
  rw [lookup_foldl_erase, Membership.apply]
  apply Option.ext
  intro p
  rw [AList.lookup_retain_eq_some]
  split
  · rename_i hid
    obtain ⟨q, hq, hlost⟩ := (h.mem_evicted order config).mp hid
    refine iff_of_false ?_ nofun
    rintro ⟨hp, hkept⟩
    cases hq.symm.trans hp
    simp [hlost] at hkept
  · rename_i hid
    apply and_iff_left_of_imp
    intro hp
    simpa using fun hlost => hid ((h.mem_evicted order config).mpr ⟨p, hp, hlost⟩)

theorem apply (h : Refines s m) (op : Op) : Refines (s.apply op) (m.apply op) := by
  cases op with
  | announce peer nowMs => exact h.announce peer nowMs
  | depart id => exact h.depart id
  | recordHealthCheck id healthy latencyMs nowMs =>
    exact h.recordHealthCheck id healthy latencyMs nowMs
  | evictUnhealthy order config => exact h.evictUnhealthy order config

theorem start : Refines {} (∅ : Membership) where
  peers _ := by simp
  health _ := by simp
  own _ _ hp := by simp at hp

theorem foldl (h : Refines s m) (ops : List Op) :
    Refines (ops.foldl PeerRegistry.apply s) (ops.foldl Membership.apply m) := by
  induction ops generalizing s m with
  | nil => exact h
  | cons op ops ih => exact ih (h.apply op)

theorem after (ops : List Op) : Refines (.after ops) (.after ops) := start.foldl ops

theorem mem_values (h : Refines s m) (order : PeerOrder) {info : PeerInfo} :
    info ∈ s.values order ↔ m.Knows info := by
  simp only [PeerRegistry.values, Membership.Knows, List.mem_map, IterationOrder.mem_arrange]
  constructor
  · rintro ⟨⟨k, info⟩, hentry, rfl⟩
    have hlookup := (h.peers k).symm.trans (AList.mem_lookup_iff.mpr hentry)
    obtain ⟨p, hp, rfl⟩ := Option.map_eq_some_iff.mp hlookup
    exact ⟨p, (h.own k p hp).symm ▸ hp, rfl⟩
  · rintro ⟨p, hp, rfl⟩
    refine ⟨⟨p.info.peerId, p.info⟩, AList.mem_lookup_iff.mp ?_, rfl⟩
    rw [Option.mem_def, h.peers, hp, Option.map_some]

theorem isHealthy_iff (h : Refines s m) (hp : m.lookup p.info.peerId = some p) :
    s.isHealthy p.info = true ↔ p.Up := by
  rw [PeerRegistry.isHealthy, h.health, hp]
  rfl

theorem latencyOf_eq (h : Refines s m) (hp : m.lookup p.info.peerId = some p) :
    s.latencyOf p.info = p.latencyRank := by
  rw [PeerRegistry.latencyOf, h.health, hp]
  rfl

theorem nodup_values (h : Refines s m) (order : PeerOrder) : (s.values order).Nodup := by
  have hkeys : ((order.arrange s.peers.entries).map (·.1)).Nodup :=
    ((order.perm _).map _).nodup_iff.mpr s.peers.keys_nodup
  have hids : (s.values order).map (·.peerId) = (order.arrange s.peers.entries).map (·.1) := by
    rw [PeerRegistry.values, List.map_map]
    apply List.map_congr_left
    rintro ⟨k, info⟩ hentry
    have hlookup := (h.peers k).symm.trans
      (AList.mem_lookup_iff.mpr ((order.mem_arrange).mp hentry))
    obtain ⟨p, hp, rfl⟩ := Option.map_eq_some_iff.mp hlookup
    exact h.own k p hp
  exact (hids ▸ hkeys).of_map _

theorem mem_healthyPeers (h : Refines s m) (order : PeerOrder) {info : PeerInfo} :
    info ∈ s.healthyPeers order ↔ ∃ p, m.lookup info.peerId = some p ∧ p.info = info ∧ p.Up := by
  rw [PeerRegistry.healthyPeers, List.mem_filter, h.mem_values]
  constructor
  · rintro ⟨⟨p, hp, rfl⟩, hhealthy⟩
    exact ⟨p, hp, rfl, (h.isHealthy_iff hp).mp hhealthy⟩
  · rintro ⟨p, hp, rfl, hup⟩
    exact ⟨⟨p, hp, rfl⟩, (h.isHealthy_iff hp).mpr hup⟩

theorem mem_peersByService (h : Refines s m) (order : PeerOrder) {service : String}
    {info : PeerInfo} :
    info ∈ s.peersByService order service ↔ m.Knows info ∧ info.serviceType = service := by
  simp [PeerRegistry.peersByService, h.mem_values]

theorem mem_peersByTag (h : Refines s m) (order : PeerOrder) {tag : String} {info : PeerInfo} :
    info ∈ s.peersByTag order tag ↔ m.Knows info ∧ tag ∈ info.tags := by
  simp [PeerRegistry.peersByTag, h.mem_values]

theorem mem_candidates (h : Refines s m) (order : PeerOrder) {service : String}
    {info : PeerInfo} :
    info ∈ (s.values order).filter (fun p =>
      decide (p.serviceType = service) && s.isHealthy p) ↔
        ∃ p, p.info = info ∧ m.Serves service p := by
  rw [List.mem_filter, h.mem_values, Bool.and_eq_true, decide_eq_true_eq]
  constructor
  · rintro ⟨⟨p, hp, rfl⟩, hservice, hhealthy⟩
    exact ⟨p, rfl, hp, hservice, (h.isHealthy_iff hp).mp hhealthy⟩
  · rintro ⟨p, rfl, hp, hservice, hup⟩
    exact ⟨⟨p, hp, rfl⟩, hservice, (h.isHealthy_iff hp).mpr hup⟩

theorem lowestLatencyPeer_none (h : Refines s m) (order : PeerOrder) (service : String) :
    s.lowestLatencyPeer order service = none ↔ ∀ p, ¬ m.Serves service p := by
  rw [PeerRegistry.lowestLatencyPeer, List.argmin_eq_none, List.eq_nil_iff_forall_not_mem]
  simp only [h.mem_candidates, not_exists, not_and]
  exact ⟨fun hno p hp => hno p.info p rfl hp, fun hno _ p _ hp => hno p hp⟩

theorem lowestLatencyPeer_some (h : Refines s m) {order : PeerOrder} {service : String}
    {info : PeerInfo} (hpeer : s.lowestLatencyPeer order service = some info) :
    ∃ p, p.info = info ∧ m.Serves service p ∧
      ∀ q, m.Serves service q → p.latencyRank ≤ q.latencyRank := by
  rw [PeerRegistry.lowestLatencyPeer] at hpeer
  obtain ⟨p, rfl, hp⟩ := (h.mem_candidates order).mp (List.argmin_mem hpeer)
  refine ⟨p, rfl, hp, fun q hq => ?_⟩
  have hle := List.le_of_mem_argmin ((h.mem_candidates order).mpr ⟨q, rfl, hq⟩) hpeer
  rwa [h.latencyOf_eq hp.1, h.latencyOf_eq hq.1] at hle

end Refines

/-- After any calls the two maps hold the members and nothing else, at most 256 of them, each with
what the checks since it joined say; and every question about the peers is answered by that. -/
theorem members_tracked (ops : List Op) (order : PeerOrder) (walk : HealthOrder) :
    let s := PeerRegistry.after ops
    let m := Membership.after ops
    (∀ id, s.peers.lookup id = (m.lookup id).map Member.info ∧
      s.healthOf id = (m.lookup id).map Member.health) ∧
    (∀ id p, m.lookup id = some p → ∃ before first rest, Story ops id p before first rest) ∧
    s.len = m.entries.length ∧ s.len ≤ 256 ∧
    ((s.healthyPeers order).Nodup ∧ ∀ info, info ∈ s.healthyPeers order ↔
      ∃ p, m.lookup info.peerId = some p ∧ p.info = info ∧ p.Up) ∧
    (∀ service info, info ∈ s.peersByService order service ↔
      m.Knows info ∧ info.serviceType = service) ∧
    (∀ tag info, info ∈ s.peersByTag order tag ↔ m.Knows info ∧ tag ∈ info.tags) ∧
    (∀ config, (s.evictUnhealthy walk config).1.Nodup ∧
      ∀ id, id ∈ (s.evictUnhealthy walk config).1 ↔
        ∃ p, m.lookup id = some p ∧ p.Lost config.removalAfterFailures) ∧
    ∀ service, (s.lowestLatencyPeer order service = none ↔ ∀ p, ¬ m.Serves service p) ∧
      ∀ info, s.lowestLatencyPeer order service = some info → ∃ p, p.info = info ∧
        m.Serves service p ∧ ∀ q, m.Serves service q → p.latencyRank ≤ q.latencyRank := by
  intro s m
  have h : Refines s m := Refines.after ops
  have hroom : s.len ≤ 256 := h.length_eq.trans_le (Membership.room ops)
  have hhealthy : (s.healthyPeers order).Nodup := (h.nodup_values order).filter _
  refine ⟨fun id => ⟨h.peers id, h.health id⟩, fun id p hp => Membership.exists_story ops hp,
    h.length_eq, hroom, ⟨hhealthy, fun info => h.mem_healthyPeers order⟩,
    fun service info => h.mem_peersByService order, fun tag info => h.mem_peersByTag order,
    fun config => ?_, fun service => ?_⟩
  · exact ⟨s.nodup_evicted walk config, fun id => h.mem_evicted walk config⟩
  · exact ⟨h.lowestLatencyPeer_none order service, fun info => h.lowestLatencyPeer_some⟩

end HelixRouter.Peers
