import HelixRouter.Containers.Retain
import HelixRouter.Router.Numbers
import HelixRouter.Runs.Stepwise
import Mathlib.Data.List.Nodup

namespace HelixRouter.Connections

inductive ConnectionState where
  | idle
  | inUse
  | unhealthy
  | evicted
  deriving DecidableEq

structure PooledConnection where
  id : UInt64
  backend : String
  state : ConnectionState
  createdAtMs : UInt64
  lastUsedMs : UInt64
  useCount : UInt64
  errorCount : UInt64

structure PoolConfig where
  maxConnections : UInt64 := 10
  minIdle : UInt64 := 2
  maxIdleMs : UInt64 := 60000
  maxLifetimeMs : UInt64 := 300000
  healthCheckIntervalMs : UInt64 := 30000

structure ConnectionPool where
  connections : List PooledConnection := []
  config : PoolConfig
  backend : String
  nextId : UInt64 := 1
  totalAcquired : UInt64 := 0
  totalReleased : UInt64 := 0
  evictedTotal : UInt64 := 0

namespace PooledConnection

def checkOut (nowMs : UInt64) (c : PooledConnection) : PooledConnection :=
  { c with state := .inUse, lastUsedMs := nowMs, useCount := c.useCount + 1 }

def putBack (nowMs : UInt64) (hadError : Bool) (c : PooledConnection) : PooledConnection :=
  if hadError then
    { c with state := .unhealthy, lastUsedMs := nowMs, errorCount := c.errorCount + 1 }
  else { c with state := .idle, lastUsedMs := nowMs }

/-- Whether a connection stays when those that are stale are evicted. -/
def kept (config : PoolConfig) (nowMs : UInt64) (c : PooledConnection) : Bool :=
  let idleAge := saturatingSub nowMs c.lastUsedMs
  let lifetime := saturatingSub nowMs c.createdAtMs
  match c.state with
  | .unhealthy => false
  | .evicted => false
  | .idle => idleAge < config.maxIdleMs ∧ lifetime < config.maxLifetimeMs
  | .inUse => lifetime < config.maxLifetimeMs

def failing (config : PoolConfig) (nowMs : UInt64) (c : PooledConnection) : Bool :=
  c.state = .idle ∧ config.healthCheckIntervalMs < saturatingSub nowMs c.lastUsedMs ∧
    3 < c.errorCount

def check (config : PoolConfig) (nowMs : UInt64) (c : PooledConnection) : PooledConnection :=
  if c.failing config nowMs then { c with state := .unhealthy } else c

end PooledConnection

namespace ConnectionPool

def new (backend : String) (config : PoolConfig) : ConnectionPool where
  config := config
  backend := backend

def acquire (pool : ConnectionPool) (nowMs : UInt64) : Option UInt64 × ConnectionPool :=
  match pool.connections.find? (·.state = .idle) with
  | some conn =>
    (some conn.id,
      { pool with
        connections := pool.connections.modifyFirst (·.state = .idle) (.checkOut nowMs)
        totalAcquired := pool.totalAcquired + 1 })
  | none =>
    if pool.connections.length < pool.config.maxConnections.toNat then
      let conn : PooledConnection := ⟨pool.nextId, pool.backend, .inUse, nowMs, nowMs, 1, 0⟩
      (some pool.nextId,
        { pool with
          connections := pool.connections ++ [conn]
          nextId := pool.nextId + 1
          totalAcquired := pool.totalAcquired + 1 })
    else (none, pool)

def release (pool : ConnectionPool) (connId nowMs : UInt64) (hadError : Bool) : ConnectionPool :=
  { pool with
    connections := pool.connections.modifyFirst (·.id = connId) (.putBack nowMs hadError)
    totalReleased := pool.totalReleased + 1 }

def evictStale (pool : ConnectionPool) (nowMs : UInt64) : Nat × ConnectionPool :=
  let connections := pool.connections.filter (·.kept pool.config nowMs)
  let evicted := pool.connections.length - connections.length
  (evicted,
    { pool with
      connections := connections
      evictedTotal := pool.evictedTotal + UInt64.ofNat evicted })

def healthCheckAll (pool : ConnectionPool) (nowMs : UInt64) : List UInt64 × ConnectionPool :=
  ((pool.connections.filter (·.failing pool.config nowMs)).map (·.id),
    { pool with connections := pool.connections.map (.check pool.config nowMs) })

def availableCount (pool : ConnectionPool) : Nat :=
  (pool.connections.filter (·.state = .idle)).length

def inUseCount (pool : ConnectionPool) : Nat :=
  (pool.connections.filter (·.state = .inUse)).length

end ConnectionPool

open Runs

/-- The ids of the connections in use. -/
def inUse (cs : List PooledConnection) : List UInt64 :=
  (cs.filter (·.state = .inUse)).map (·.id)

section InUse

variable {c : PooledConnection} {cs ds : List PooledConnection}

theorem inUse_cons (h : c.state = .inUse) : inUse (c :: cs) = c.id :: inUse cs := by
  simp [inUse, h]

theorem inUse_cons_of_ne (h : c.state ≠ .inUse) : inUse (c :: cs) = inUse cs := by
  simp [inUse, h]

theorem inUse_append : inUse (cs ++ ds) = inUse cs ++ inUse ds := by
  rw [inUse, List.filter_append, List.map_append]
  rfl

theorem inUse_map {f : PooledConnection → PooledConnection} (hid : ∀ c, (f c).id = c.id)
    (hf : ∀ c, (f c).state = .inUse ↔ c.state = .inUse) : inUse (cs.map f) = inUse cs := by
  induction cs with
  | nil => rfl
  | cons c cs ih =>
    rw [List.map_cons]
    by_cases hc : c.state = .inUse
    · rw [inUse_cons hc, inUse_cons ((hf c).mpr hc), hid, ih]
    · rw [inUse_cons_of_ne hc, inUse_cons_of_ne (mt (hf c).mp hc), ih]

theorem inUse_perm (h : cs.Perm ds) : (inUse cs).Perm (inUse ds) := (h.filter _).map _

theorem mem_inUse {id : UInt64} : id ∈ inUse cs ↔ ∃ c ∈ cs, c.state = .inUse ∧ c.id = id := by
  simp [inUse, and_assoc]

theorem inUse_subset : inUse cs ⊆ cs.map (·.id) := by
  intro id hid
  obtain ⟨c, hc, -, rfl⟩ := mem_inUse.mp hid
  exact List.mem_map_of_mem hc

end InUse

/-- The connections that callers hold: those of a pool that are in use, and orphans, which were
evicted while they were. -/
structure Accounted (cs : List PooledConnection) (held orphans : List UInt64) : Prop where
  ids : (cs.map (·.id)).Nodup
  holders : held.Perm (orphans ++ inUse cs)
  distinct : held.Nodup
  apart : ∀ c ∈ cs, c.id ∉ orphans
  live : ∀ c ∈ cs, c.state ≠ .evicted

namespace Accounted

variable {c d : PooledConnection} {cs ds : List PooledConnection} {held orphans : List UInt64}
  {id : UInt64}

theorem of_perm (h : Accounted cs held orphans) (hp : cs.Perm ds) :
    Accounted ds held orphans where
  ids := (hp.map _).nodup_iff.mp h.ids
  holders := h.holders.trans ((inUse_perm hp).append_left _)
  distinct := h.distinct
  apart c hc := h.apart c (hp.mem_iff.mpr hc)
  live c hc := h.live c (hp.mem_iff.mpr hc)

theorem not_held_of_new (h : Accounted cs held orphans) (hid : id ∉ cs.map (·.id))
    (ho : id ∉ orphans) : id ∉ held := by
  rw [h.holders.mem_iff, List.mem_append, not_or]
  exact ⟨ho, fun hin => hid (inUse_subset hin)⟩

theorem held_of_inUse (h : Accounted cs held orphans) (hc : c ∈ cs) (huse : c.state = .inUse) :
    c.id ∈ held :=
  h.holders.mem_iff.mpr (List.mem_append_right _ (mem_inUse.mpr ⟨c, hc, huse, rfl⟩))

theorem held_of_orphan (h : Accounted cs held orphans) (ho : id ∈ orphans) : id ∈ held :=
  h.holders.mem_iff.mpr (List.mem_append_left _ ho)

/-- Where no connection is idle, an id that is not held names unhealthy connections only. -/
theorem not_mem_ids (h : Accounted cs held orphans) (hidle : ∀ c ∈ cs, c.state ≠ .idle)
    (hid : id ∉ held) (hhealthy : ∀ c ∈ cs, c.id = id → c.state ≠ .unhealthy) :
    id ∉ cs.map (·.id) := by
  intro hin
  obtain ⟨c, hc, heq⟩ := List.mem_map.mp hin
  cases hstate : c.state with
  | idle => exact hidle c hc hstate
  | inUse => exact hid (heq ▸ h.held_of_inUse hc hstate)
  | unhealthy => exact hhealthy c hc heq hstate
  | evicted => exact h.live c hc hstate

/-- What is not in use is not held. -/
theorem tail (h : Accounted (c :: cs) held orphans) (hc : c.state ≠ .inUse) :
    Accounted cs held orphans where
  ids := (List.nodup_cons.mp h.ids).2
  holders := inUse_cons_of_ne hc ▸ h.holders
  distinct := h.distinct
  apart := (List.forall_mem_cons.mp h.apart).2
  live := (List.forall_mem_cons.mp h.live).2

theorem create (h : Accounted cs held orphans) (hc : c.state = .inUse)
    (hid : c.id ∉ cs.map (·.id)) (ho : c.id ∉ orphans) :
    Accounted (c :: cs) (c.id :: held) orphans where
  ids := List.nodup_cons.mpr ⟨hid, h.ids⟩
  holders := by
    rw [inUse_cons hc]
    exact (h.holders.cons _).trans List.perm_middle.symm
  distinct := List.nodup_cons.mpr ⟨h.not_held_of_new hid ho, h.distinct⟩
  apart := List.forall_mem_cons.mpr ⟨ho, h.apart⟩
  live := List.forall_mem_cons.mpr ⟨hc.trans_ne (nofun), h.live⟩

theorem checkOut (h : Accounted (c :: cs) held orphans) (hc : c.state = .idle) (nowMs : UInt64) :
    Accounted (c.checkOut nowMs :: cs) (c.id :: held) orphans :=
  (h.tail (hc.trans_ne (nofun))).create rfl (List.nodup_cons.mp h.ids).1
    (h.apart c List.mem_cons_self)

theorem release (h : Accounted (c :: cs) held orphans) (hc : c.state = .inUse) (hid : d.id = c.id)
    (hd : d.state = .idle ∨ d.state = .unhealthy) :
    Accounted (d :: cs) (held.erase c.id) (orphans.erase c.id) := by
  have hd' : d.state ≠ .inUse ∧ d.state ≠ .evicted := by
    rcases hd with hd | hd <;> simp [hd]
  have horphans : orphans.erase c.id = orphans :=
    List.erase_of_not_mem (h.apart c List.mem_cons_self)
  refine ⟨?_, ?_, h.distinct.erase _, ?_, List.forall_mem_cons.mpr ⟨hd'.2, ?_⟩⟩
  · rw [List.map_cons, hid]
    exact h.ids
  · have hholders := h.holders
    rw [inUse_cons hc] at hholders
    rw [horphans, inUse_cons_of_ne hd'.1, ← List.erase_cons_head (a := c.id) (l := orphans ++ inUse cs)]
    exact (hholders.trans List.perm_middle).erase _
  · rw [horphans]
    refine List.forall_mem_cons.mpr ⟨?_, (List.forall_mem_cons.mp h.apart).2⟩
    rw [hid]
    exact h.apart c List.mem_cons_self
  · exact (List.forall_mem_cons.mp h.live).2

theorem releaseOrphan (h : Accounted cs held orphans) (ho : id ∈ orphans) :
    Accounted cs (held.erase id) (orphans.erase id) where
  ids := h.ids
  holders := by
    rw [← List.erase_append_left _ ho]
    exact h.holders.erase id
  distinct := h.distinct.erase id
  apart c hc hin := h.apart c hc (List.mem_of_mem_erase hin)
  live := h.live

/-- Who holds a connection that is evicted holds an orphan. -/
theorem evict (h : Accounted cs held orphans) (keep : PooledConnection → Bool) :
    Accounted (cs.filter keep) held (orphans ++ inUse (cs.filter (!keep ·))) := by
  have hsplit : (cs.filter keep ++ cs.filter (!keep ·)).Perm cs := List.filter_append_perm keep cs
  have hids := (hsplit.map (·.id)).nodup_iff.mpr h.ids
  rw [List.map_append, List.nodup_append] at hids
  refine ⟨hids.1, ?_, h.distinct, ?_, ?_⟩
  · have huse := inUse_perm hsplit.symm
    rw [inUse_append] at huse
    rw [List.append_assoc]
    exact h.holders.trans ((huse.trans List.perm_append_comm).append_left _)
  · intro c hc hin
    rcases List.mem_append.mp hin with ho | hout
    · exact h.apart c (List.mem_of_mem_filter hc) ho
    · exact hids.2.2 _ (List.mem_map_of_mem hc) _ (inUse_subset hout) rfl
  · intro c hc
    exact h.live c (List.mem_of_mem_filter hc)

theorem check (h : Accounted cs held orphans) (config : PoolConfig) (nowMs : UInt64) :
    Accounted (cs.map (.check config nowMs)) held orphans := by
  have hid : ∀ c : PooledConnection, (c.check config nowMs).id = c.id := by
    intro c
    unfold PooledConnection.check
    split <;> rfl
  have hstate : ∀ c : PooledConnection, (c.check config nowMs).state = c.state ∨
      c.state = .idle ∧ (c.check config nowMs).state = .unhealthy := by
    intro c
    unfold PooledConnection.check PooledConnection.failing
    split
    · rename_i hf
      exact Or.inr ⟨(of_decide_eq_true hf).1, rfl⟩
    · exact Or.inl rfl
  have hids : (cs.map (PooledConnection.check config nowMs)).map (·.id) = cs.map (·.id) := by
    rw [List.map_map]
    exact List.map_congr_left fun c _ => hid c
  have huse : inUse (cs.map (.check config nowMs)) = inUse cs := by
    apply inUse_map hid
    intro c
    rcases hstate c with heq | ⟨hi, hu⟩
    · rw [heq]
    · simp [hi, hu]
  refine ⟨hids ▸ h.ids, huse ▸ h.holders, h.distinct, ?_, ?_⟩
  · intro c hc
    obtain ⟨d, hd, rfl⟩ := List.mem_map.mp hc
    rw [hid]
    exact h.apart d hd
  · intro c hc
    obtain ⟨d, hd, rfl⟩ := List.mem_map.mp hc
    rcases hstate d with heq | ⟨-, hu⟩
    · exact heq.trans_ne (h.live d hd)
    · exact hu.trans_ne (nofun)

end Accounted

inductive Op where
  | acquire (nowMs : UInt64)
  | release (connId nowMs : UInt64) (hadError : Bool)
  | evictStale (nowMs : UInt64)
  | healthCheckAll (nowMs : UInt64)

/-- A pool, the ids that callers have acquired and not released, and those of them whose
connection was evicted since. -/
structure History where
  pool : ConnectionPool
  held : List UInt64 := []
  orphans : List UInt64 := []

namespace History

def start (backend : String) (config : PoolConfig) : History := { pool := .new backend config }

/-- Callers release what they hold. -/
def step (h : History) : Op → Option History
  | .acquire nowMs =>
    let (id, pool) := h.pool.acquire nowMs
    some { h with pool := pool, held := id.toList ++ h.held }
  | .release connId nowMs hadError =>
    if connId ∈ h.held then
      some
        { pool := h.pool.release connId nowMs hadError
          held := h.held.erase connId
          orphans := h.orphans.erase connId }
    else none
  | .evictStale nowMs =>
    let evicted := h.pool.connections.filter (!·.kept h.pool.config nowMs)
    some { h with pool := (h.pool.evictStale nowMs).2, orphans := h.orphans ++ inUse evicted }
  | .healthCheckAll nowMs => some { h with pool := (h.pool.healthCheckAll nowMs).2 }

/-- No two callers hold one connection, and no more are held than there may be. -/
def Exclusive (h : History) : Prop :=
  h.held.Nodup ∧ h.held.length ≤ h.pool.config.maxConnections.toNat

/-- No unhealthy connection is handed out. -/
def HandsOutHealthy (h : History) : Op → Prop
  | .acquire nowMs => ∀ id ∈ (h.pool.acquire nowMs).1, ∀ c ∈ h.pool.connections, c.id = id →
    c.state ≠ .unhealthy
  | _ => True

/-- There may be one more beside the orphans and the connections in use. -/
def Room (h : History) : Prop :=
  h.orphans.length + h.pool.inUseCount < h.pool.config.maxConnections.toNat

/-- Whenever a connection is handed out there is room for it beside the orphans, and the id of
a new one is not that of an orphan or of a connection in the pool. -/
def SparesOrphans (h : History) : Op → Prop
  | .acquire _ => if h.pool.availableCount ≠ 0 then h.Room
    else h.pool.connections.length < h.pool.config.maxConnections.toNat →
      h.Room ∧ h.pool.nextId ∉ h.pool.connections.map (·.id) ∧ h.pool.nextId ∉ h.orphans
  | _ => True

/-- The connections that are held are accounted for, and there is room for them. -/
structure Sound (h : History) : Prop where
  accounted : Accounted h.pool.connections h.held h.orphans
  room : h.held.length ≤ h.pool.config.maxConnections.toNat

variable {h h' : History}

theorem sound_start (backend : String) (config : PoolConfig) : (start backend config).Sound where
  accounted := ⟨.nil, .nil, .nil, nofun, nofun⟩
  room := Nat.zero_le _

theorem Sound.exclusive (hs : h.Sound) : h.Exclusive := ⟨hs.accounted.distinct, hs.room⟩

theorem Sound.held_length (hs : h.Sound) :
    h.held.length = h.orphans.length + h.pool.inUseCount := by
  rw [hs.accounted.holders.length_eq, List.length_append, inUse, List.length_map]
  rfl

theorem Sound.room_iff (hs : h.Sound) : h.Room ↔
    h.held.length + 1 ≤ h.pool.config.maxConnections.toNat := by
  rw [hs.held_length]
  exact Iff.rfl

theorem availableCount_of_none (hf : h.pool.connections.find? (·.state = .idle) = none) :
    h.pool.availableCount = 0 := by
  rw [ConnectionPool.availableCount, List.length_eq_zero_iff, List.filter_eq_nil_iff]
  exact List.find?_eq_none.mp hf

theorem availableCount_of_some {c : PooledConnection}
    (hf : h.pool.connections.find? (·.state = .idle) = some c) : h.pool.availableCount ≠ 0 := by
  have hidle := List.find?_some hf
  have hc : c ∈ h.pool.connections.filter (·.state = .idle) :=
    List.mem_filter.mpr ⟨List.mem_of_find?_eq_some hf, hidle⟩
  exact Nat.ne_of_gt (List.length_pos_of_mem hc)

theorem Sound.inUse_of_held (hs : h.Sound) {c : PooledConnection} (hc : c ∈ h.pool.connections)
    (hheld : c.id ∈ h.held) : c.state = .inUse := by
  rw [hs.accounted.holders.mem_iff, List.mem_append] at hheld
  rcases hheld with ho | hin
  · exact absurd ho (hs.accounted.apart c hc)
  · obtain ⟨d, hd, huse, heq⟩ := mem_inUse.mp hin
    rw [← List.inj_on_of_nodup_map hs.accounted.ids hd hc heq]
    exact huse

/-- An idle connection can only be one too many. -/
theorem Sound.acquireIdle (hs : h.Sound) {nowMs : UInt64} {c : PooledConnection}
    (hf : h.pool.connections.find? (·.state = .idle) = some c)
    (hstep : step h (.acquire nowMs) = some h') :
    (h'.Exclusive ∧ h.HandsOutHealthy (.acquire nowMs) ↔ h.SparesOrphans (.acquire nowMs)) ∧
      (h.SparesOrphans (.acquire nowMs) → h'.Sound) := by
  obtain ⟨hidle, rest, hp, hp'⟩ := List.modifyFirst_of_find?_some (f := .checkOut nowMs) hf
  have hidle : c.state = .idle := of_decide_eq_true hidle
  have hnext := ((hs.accounted.of_perm hp).checkOut hidle nowMs).of_perm hp'.symm
  have hhealthy : h.HandsOutHealthy (.acquire nowMs) := by
    intro id hid d hd heq
    rw [ConnectionPool.acquire, hf] at hid
    cases hid
    have hsame := List.inj_on_of_nodup_map hs.accounted.ids hd (List.mem_of_find?_eq_some hf) heq
    rw [hsame, hidle]
    exact nofun
  rw [SparesOrphans, if_pos (availableCount_of_some hf), hs.room_iff, and_iff_left hhealthy]
  rw [step, ConnectionPool.acquire, hf] at hstep
  cases hstep
  exact ⟨⟨fun he => he.2, fun hroom => ⟨hnext.distinct, hroom⟩⟩, fun hroom => ⟨hnext, hroom⟩⟩

/-- A new connection can be one too many, or have the id of another. -/
theorem Sound.acquireNew (hs : h.Sound) {nowMs : UInt64}
    (hf : h.pool.connections.find? (·.state = .idle) = none)
    (hstep : step h (.acquire nowMs) = some h') :
    (h'.Exclusive ∧ h.HandsOutHealthy (.acquire nowMs) ↔ h.SparesOrphans (.acquire nowMs)) ∧
      (h.SparesOrphans (.acquire nowMs) → h'.Sound) := by
  rw [SparesOrphans, if_neg (not_not.mpr (availableCount_of_none hf)), hs.room_iff]
  rw [step, ConnectionPool.acquire, hf] at hstep
  rw [HandsOutHealthy, ConnectionPool.acquire, hf]
  dsimp only at hstep ⊢
  split at hstep
  · rename_i hmore
    rw [if_pos hmore]
    cases hstep
    have hnext : h.pool.nextId ∉ h.pool.connections.map (·.id) → h.pool.nextId ∉ h.orphans →
        Accounted (h.pool.connections ++ [⟨h.pool.nextId, h.pool.backend, .inUse, nowMs, nowMs, 1, 0⟩])
          (h.pool.nextId :: h.held) h.orphans := by
      intro hid ho
      apply (hs.accounted.create (c := ⟨_, h.pool.backend, .inUse, nowMs, nowMs, 1, 0⟩) rfl hid ho).of_perm
      exact (List.perm_append_singleton _ _).symm
    have hidle : ∀ c ∈ h.pool.connections, c.state ≠ .idle := by
      intro c hc hstate
      exact List.find?_eq_none.mp hf c hc (decide_eq_true hstate)
    refine ⟨⟨?_, ?_⟩, ?_⟩
    · intro hafter _
      obtain ⟨⟨hdistinct, hlength⟩, hhealthy⟩ := hafter
      have hnew : h.pool.nextId ∉ h.held := (List.nodup_cons.mp hdistinct).1
      exact ⟨hlength, hs.accounted.not_mem_ids hidle hnew (hhealthy _ rfl),
        fun ho => hnew (hs.accounted.held_of_orphan ho)⟩
    · intro hspares
      obtain ⟨hroom, hid, ho⟩ := hspares hmore
      refine ⟨⟨(hnext hid ho).distinct, hroom⟩, ?_⟩
      intro id heq c hc hcid
      cases heq
      exact absurd (hcid ▸ List.mem_map_of_mem hc) hid
    · intro hspares
      obtain ⟨hroom, hid, ho⟩ := hspares hmore
      exact ⟨hnext hid ho, hroom⟩
  · rename_i hfull
    rw [if_neg hfull]
    cases hstep
    refine ⟨iff_of_true ⟨hs.exclusive, nofun⟩ fun hmore => absurd hmore hfull, fun _ => hs⟩

theorem Sound.release (hs : h.Sound) {connId nowMs : UInt64} {hadError : Bool}
    (hstep : step h (.release connId nowMs hadError) = some h') : h'.Sound := by
  rw [step] at hstep
  split at hstep
  · rename_i hheld
    cases hstep
    refine ⟨?_, List.length_erase_le.trans hs.room⟩
    dsimp only [ConnectionPool.release]
    cases hf : h.pool.connections.find? (·.id = connId) with
    | none =>
      have horphan : connId ∈ h.orphans := by
        rw [hs.accounted.holders.mem_iff, List.mem_append] at hheld
        apply hheld.resolve_right
        intro hin
        obtain ⟨d, hd, -, heq⟩ := mem_inUse.mp hin
        exact List.find?_eq_none.mp hf d hd (decide_eq_true heq)
      rw [List.modifyFirst_of_find?_none hf]
      exact hs.accounted.releaseOrphan horphan
    | some c =>
      obtain ⟨hid, rest, hp, hp'⟩ :=
        List.modifyFirst_of_find?_some (f := .putBack nowMs hadError) hf
      have hid : c.id = connId := of_decide_eq_true hid
      subst hid
      have huse := hs.inUse_of_held (List.mem_of_find?_eq_some hf) hheld
      have hnext := (hs.accounted.of_perm hp).release (d := c.putBack nowMs hadError) huse
      apply (hnext ?_ ?_).of_perm hp'.symm
      · cases hadError <;> rfl
      · cases hadError
        · exact Or.inl rfl
        · exact Or.inr rfl
  · cases hstep

theorem Sound.evictStale (hs : h.Sound) {nowMs : UInt64}
    (hstep : step h (.evictStale nowMs) = some h') : h'.Sound := by
  cases hstep
  exact ⟨hs.accounted.evict _, hs.room⟩

theorem Sound.healthCheckAll (hs : h.Sound) {nowMs : UInt64}
    (hstep : step h (.healthCheckAll nowMs) = some h') : h'.Sound := by
  cases hstep
  exact ⟨hs.accounted.check _ _, hs.room⟩

theorem Sound.next (hs : h.Sound) {op : Op} (hstep : step h op = some h') :
    (h'.Exclusive ∧ h.HandsOutHealthy op ↔ h.SparesOrphans op) ∧
      (h.SparesOrphans op → h'.Sound) := by
  cases op with
  | acquire nowMs =>
    cases hf : h.pool.connections.find? (·.state = .idle) with
    | none => exact hs.acquireNew hf hstep
    | some c => exact hs.acquireIdle hf hstep
  | release connId nowMs hadError =>
    have hnext := hs.release hstep
    exact ⟨iff_of_true ⟨hnext.exclusive, trivial⟩ trivial, fun _ => hnext⟩
  | evictStale nowMs =>
    have hnext := hs.evictStale hstep
    exact ⟨iff_of_true ⟨hnext.exclusive, trivial⟩ trivial, fun _ => hnext⟩
  | healthCheckAll nowMs =>
    have hnext := hs.healthCheckAll hstep
    exact ⟨iff_of_true ⟨hnext.exclusive, trivial⟩ trivial, fun _ => hnext⟩

end History

open History

/-- Exclusive and within bounds are just the runs in which every connection that is handed out
leaves room for the orphans. -/
theorem exclusive_iff (backend : String) (config : PoolConfig) (ops : List Op) :
    (Throughout step Exclusive (start backend config) ops ∧
      EachStep step HandsOutHealthy (start backend config) ops) ↔
    EachStep step SparesOrphans (start backend config) ops := by
  have hstart := sound_start backend config
  rw [throughout_iff_after hstart.exclusive, ← eachStep_and]
  apply eachStep_iff_of_invariant hstart
  intro h op h' hs hstep
  rw [forall_step_iff hstep]
  exact hs.next hstep

def one : PoolConfig where
  maxConnections := 1

/-- What is in use past its lifetime is evicted, and its place is given away. -/
theorem eviction_gives_away_place : ¬ Throughout step Exclusive (start "backend-a" one)
    [.acquire 0, .evictStale 300000, .acquire 300000] := by
  intro h
  have hlast := (h.last rfl).2
  exact absurd hlast (by decide +kernel)

end HelixRouter.Connections
