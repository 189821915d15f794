import HelixRouter.Balancing.LoadBalancer
import HelixRouter.Runs.Stepwise
import Mathlib.Data.List.AList

namespace HelixRouter.Mesh

def fnv1a (data : List UInt8) : UInt64 := Balancing.fnv1a data

def utf8 (text : String) : List UInt8 := text.toUTF8.data.toList

/-- The bytes of a word, the least significant one first. -/
def toLeBytes (n : UInt64) : List UInt8 :=
  (List.range 8).map fun i => (n >>> UInt64.ofNat (8 * i)).toUInt8

/-- Sixteen hexadecimal digits. -/
def hex16 (n : UInt64) : String :=
  let digits := Nat.toDigits 16 n.toNat
  String.ofList (List.replicate (16 - digits.length) '0' ++ digits)

structure ServiceInstance where
  id : String
  serviceName : String
  address : String
  port : UInt16
  metadata : AList (fun _ : String => String) := ∅
  healthScore : Float
  registeredAt : UInt64

structure ServiceRegistry where
  instances : AList (fun _ : String => List ServiceInstance) := ∅

namespace ServiceRegistry

def register (r : ServiceRegistry) (i : ServiceInstance) : ServiceRegistry :=
  let known := (r.instances.lookup i.serviceName).getD []
  { r with instances := r.instances.insert i.serviceName (known ++ [i]) }

def discover (r : ServiceRegistry) (serviceName : String) : List ServiceInstance :=
  match r.instances.lookup serviceName with
  | some instances => instances.filter fun i => decide (0.5 < i.healthScore)
  | none => []

end ServiceRegistry

structure MtlsHandshake where
  clientId : String
  serverId : String
  sessionToken : String
  establishedAt : UInt64
  expiresAt : UInt64

def MtlsHandshake.isValid (s : MtlsHandshake) (now : UInt64) : Bool := now < s.expiresAt

/-- A policy, but for its rate limit and timeout, which nothing reads. -/
structure MeshPolicy where
  serviceName : String
  allowList : List String
  requireMtls : Bool

structure ServiceMesh where
  registry : ServiceRegistry := {}
  policies : AList (fun _ : String => MeshPolicy) := ∅
  sessions : AList (fun _ : String => MtlsHandshake) := ∅

namespace ServiceMesh

def registerService (m : ServiceMesh) (i : ServiceInstance) : ServiceMesh :=
  { m with registry := m.registry.register i }

def setPolicy (m : ServiceMesh) (policy : MeshPolicy) : ServiceMesh :=
  { m with policies := m.policies.insert policy.serviceName policy }

def handshake (m : ServiceMesh) (now : UInt64) (clientId serverId : String) :
    MtlsHandshake × ServiceMesh :=
  let session : MtlsHandshake :=
    { clientId := clientId
      serverId := serverId
      sessionToken := hex16 (fnv1a (utf8 clientId ++ utf8 serverId ++ toLeBytes now))
      establishedAt := now
      expiresAt := now + 3600 }
  (session, { m with sessions := m.sessions.insert (clientId ++ "::" ++ serverId) session })

def authorize (m : ServiceMesh) (clientId targetService : String) : Bool :=
  match m.policies.lookup targetService with
  | some policy =>
    if policy.allowList.isEmpty then !policy.requireMtls else policy.allowList.any (· == clientId)
  | none => true

def routeRequest (m : ServiceMesh) (source toService : String) (key : Option String) :
    Option ServiceInstance :=
  if !m.authorize source toService then none
  else
    let instances := m.registry.discover toService
    if instances.isEmpty then none
    else
      let idx := match key with
        | some k => (fnv1a (utf8 k)).toNat % instances.length
        | none => 0
      instances[idx]?

end ServiceMesh

open Runs

inductive Event where
  | registerService (i : ServiceInstance)
  | setPolicy (policy : MeshPolicy)
  | handshake (clientId serverId : String)
  | elapse (now : UInt64)

/-- A mesh at a time, with the instances that were registered and the sessions that
handshakes returned. -/
structure World where
  mesh : ServiceMesh := {}
  now : UInt64 := 0
  registered : List ServiceInstance := []
  established : List MtlsHandshake := []

namespace World

def step (w : World) : Event → Option World
  | .registerService i =>
    some { w with mesh := w.mesh.registerService i, registered := i :: w.registered }
  | .setPolicy policy => some { w with mesh := w.mesh.setPolicy policy }
  | .handshake clientId serverId =>
    let (session, mesh) := w.mesh.handshake w.now clientId serverId
    some { w with mesh := mesh, established := session :: w.established }
  | .elapse now => if w.now ≤ now then some { w with now := now } else none

/-- The mesh holds an unexpired session that a handshake between the two established. -/
def Trusts (w : World) (client server : String) : Prop :=
  ∃ key session, w.mesh.sessions.lookup key = some session ∧ session ∈ w.established ∧
    session.clientId = client ∧ session.serverId = server ∧ session.isValid w.now = true

/-- What routing a caller to an instance of a service takes. -/
structure Proper (w : World) (source toService : String) (i : ServiceInstance) : Prop where
  registered : i ∈ w.registered
  service : i.serviceName = toService
  healthy : 0.5 < i.healthScore
  allowed : ∀ policy, w.mesh.policies.lookup toService = some policy →
    source ∈ policy.allowList ∨ policy.allowList = []
  trusted : ∀ policy, w.mesh.policies.lookup toService = some policy →
    policy.requireMtls = true → w.Trusts source toService

/-- A caller that the policy of a running service lists, and asks for a session, has one. -/
def Introduced (w : World) (source toService : String) : Prop :=
  ∀ policy, w.mesh.policies.lookup toService = some policy → policy.requireMtls = true →
    source ∈ policy.allowList → w.mesh.registry.discover toService ≠ [] →
    ∃ key session, w.mesh.sessions.lookup key = some session ∧
      session.clientId = source ∧ session.serverId = toService ∧ session.isValid w.now = true

/-- The stores hold only what was put into them. -/
structure Recorded (w : World) : Prop where
  instances : ∀ name known, w.mesh.registry.instances.lookup name = some known →
    ∀ i ∈ known, i ∈ w.registered ∧ i.serviceName = name
  sessions : ∀ key session, w.mesh.sessions.lookup key = some session →
    session ∈ w.established

end World

section Routing

variable {m : ServiceMesh} {source toService : String} {key : Option String} {i : ServiceInstance}

theorem ServiceRegistry.mem_discover {r : ServiceRegistry} {name : String}
    (h : i ∈ r.discover name) :
    ∃ known, r.instances.lookup name = some known ∧ i ∈ known ∧ 0.5 < i.healthScore := by
  unfold discover at h
  split at h
  · rename_i known hk
    obtain ⟨hi, hs⟩ := List.mem_filter.mp h
    exact ⟨known, hk, hi, of_decide_eq_true hs⟩
  · cases h

theorem ServiceMesh.authorize_iff : m.authorize source toService = true ↔
    ∀ policy, m.policies.lookup toService = some policy →
      source ∈ policy.allowList ∨ policy.allowList = [] ∧ policy.requireMtls = false := by
  unfold authorize
  cases hp : m.policies.lookup toService with
  | none => simp
  | some policy =>
    cases hl : policy.allowList with
    | nil => simp [hl]
    | cons id ids => simp [hl]; exact or_congr eq_comm Iff.rfl

/-- An authorised caller is given an instance as soon as there is one. -/
theorem ServiceMesh.routeRequest_of_discover (ha : m.authorize source toService = true)
    (hd : m.registry.discover toService ≠ []) (key : Option String) :
    ∃ i, m.routeRequest source toService key = some i := by
  have hlen : 0 < (m.registry.discover toService).length := List.length_pos_of_ne_nil hd
  have hempty : (m.registry.discover toService).isEmpty = false := by simpa using hd
  unfold routeRequest
  simp only [ha, Bool.not_true, Bool.false_eq_true, ↓reduceIte, hempty]
  cases key with
  | none => exact ⟨_, List.getElem?_eq_getElem hlen⟩
  | some k => exact ⟨_, List.getElem?_eq_getElem (Nat.mod_lt _ hlen)⟩

theorem ServiceMesh.routeRequest_eq_some (h : m.routeRequest source toService key = some i) :
    m.authorize source toService = true ∧ i ∈ m.registry.discover toService := by
  unfold routeRequest at h
  by_cases ha : m.authorize source toService = true
  · simp only [ha, Bool.not_true, Bool.false_eq_true, ↓reduceIte] at h
    split at h
    · cases h
    · exact ⟨ha, List.mem_of_getElem? h⟩
  · simp [ha] at h

end Routing

namespace World

variable {w w' : World} {es : List Event} {source toService : String}

theorem Recorded.start : Recorded {} where
  instances _ _ h := by cases h
  sessions _ _ h := by cases h

theorem Recorded.registerService (h : w.Recorded) (i : ServiceInstance) :
    Recorded { w with mesh := w.mesh.registerService i, registered := i :: w.registered } where
  instances name known hk j hj := by
    by_cases hn : name = i.serviceName
    · subst hn
      rw [show (w.mesh.registerService i).registry.instances.lookup i.serviceName =
        some ((w.mesh.registry.instances.lookup i.serviceName).getD [] ++ [i]) from
          AList.lookup_insert _] at hk
      obtain rfl := Option.some.inj hk
      rcases List.mem_append.mp hj with hj | hj
      · cases hl : w.mesh.registry.instances.lookup i.serviceName with
        | none => simp [hl] at hj
        | some old =>
          obtain ⟨hm, hs⟩ := h.instances _ _ hl j (by simpa [hl] using hj)
          exact ⟨List.mem_cons_of_mem _ hm, hs⟩
      · obtain rfl := List.mem_singleton.mp hj
        exact ⟨List.mem_cons_self, rfl⟩
    · rw [show (w.mesh.registerService i).registry.instances.lookup name =
        w.mesh.registry.instances.lookup name from AList.lookup_insert_ne hn] at hk
      obtain ⟨hm, hs⟩ := h.instances name known hk j hj
      exact ⟨List.mem_cons_of_mem _ hm, hs⟩
  sessions := h.sessions

theorem Recorded.handshake (h : w.Recorded) (client server : String) :
    Recorded { w with
      mesh := (w.mesh.handshake w.now client server).2
      established := (w.mesh.handshake w.now client server).1 :: w.established } where
  instances := h.instances
  sessions key session hk := by
    by_cases he : key = client ++ "::" ++ server
    · subst he
      rw [show (w.mesh.handshake w.now client server).2.sessions.lookup _ =
        some (w.mesh.handshake w.now client server).1 from AList.lookup_insert _] at hk
      obtain rfl := Option.some.inj hk
      exact List.mem_cons_self
    · rw [show (w.mesh.handshake w.now client server).2.sessions.lookup key =
        w.mesh.sessions.lookup key from AList.lookup_insert_ne he] at hk
      exact List.mem_cons_of_mem _ (h.sessions key session hk)

theorem Recorded.step {e : Event} (h : w.Recorded) (hs : w.step e = some w') : w'.Recorded := by
  cases e with
  | registerService i =>
    obtain rfl := Option.some.inj hs
    exact h.registerService i
  | setPolicy policy =>
    obtain rfl := Option.some.inj hs
    exact ⟨h.instances, h.sessions⟩
  | handshake client server =>
    obtain rfl := Option.some.inj hs
    exact h.handshake client server
  | elapse now =>
    simp only [World.step] at hs
    split at hs
    · obtain rfl := Option.some.inj hs
      exact ⟨h.instances, h.sessions⟩
    · cases hs

theorem recorded_of_exec (hx : exec World.step {} es = some w) : w.Recorded :=
  exec_induction hx .start fun _ _ _ h hs => h.step hs

/-- All but the session is enforced by the mesh. -/
theorem Recorded.proper (h : w.Recorded) {key : Option String} {i : ServiceInstance}
    (hr : w.mesh.routeRequest source toService key = some i)
    (hi : w.Introduced source toService) : w.Proper source toService i := by
  obtain ⟨ha, hd⟩ := ServiceMesh.routeRequest_eq_some hr
  obtain ⟨known, hk, hm, hs⟩ := ServiceRegistry.mem_discover hd
  have hpolicy := ServiceMesh.authorize_iff.mp ha
  refine ⟨(h.instances _ _ hk i hm).1, (h.instances _ _ hk i hm).2, hs, ?_, ?_⟩
  · intro policy hp
    rcases hpolicy policy hp with hl | ⟨hl, _⟩
    · exact Or.inl hl
    · exact Or.inr hl
  · intro policy hp hreq
    rcases hpolicy policy hp with hl | ⟨_, hno⟩
    · obtain ⟨key, session, hses, hc, hv⟩ := hi policy hp hreq hl (List.ne_nil_of_mem hd)
      exact ⟨key, session, hses, h.sessions key session hses, hc, hv⟩
    · rw [hreq] at hno
      cases hno

/-- In every state a mesh can get into, it enforces its policies on a caller exactly where
a caller that needs a session has one: the mesh itself never looks. -/
theorem enforced_iff_introduced (hx : exec World.step {} es = some w)
    (source toService : String) :
    (∀ key i, w.mesh.routeRequest source toService key = some i → w.Proper source toService i) ↔
      w.Introduced source toService := by
  constructor
  · intro h policy hp hreq hl hd
    have ha : w.mesh.authorize source toService = true := by
      apply ServiceMesh.authorize_iff.mpr
      intro policy' hp'
      rw [hp] at hp'
      obtain rfl := Option.some.inj hp'
      exact Or.inl hl
    obtain ⟨i, hi⟩ := ServiceMesh.routeRequest_of_discover ha hd none
    obtain ⟨key, session, hses, _, hc⟩ := (h none i hi).trusted policy hp hreq
    exact ⟨key, session, hses, hc⟩
  · intro h key i hr
    exact (recorded_of_exec hx).proper hr h

section Example

def database : ServiceInstance where
  id := "db-1"
  serviceName := "db"
  address := "10.0.0.7"
  port := 5432
  healthScore := 1.0
  registeredAt := 0

/-- Only the web service may call the database, and only in a session. -/
def closedDatabase : List Event :=
  [.registerService database,
    .setPolicy { serviceName := "db", allowList := ["web"], requireMtls := true }]

theorem routed_without_session : ∃ w i, exec World.step {} closedDatabase = some w ∧
    w.mesh.routeRequest "web" "db" none = some i ∧ ¬ w.Proper "web" "db" i := by
  have hsome : ((((({} : ServiceMesh).registerService database).setPolicy
      { serviceName := "db", allowList := ["web"], requireMtls := true }).routeRequest
      "web" "db" none)).isSome = true := by decide +kernel
  obtain ⟨i, hi⟩ := Option.isSome_iff_exists.mp hsome
  refine ⟨_, i, rfl, hi, fun h => ?_⟩
  obtain ⟨key, session, hses, _⟩ := h.trusted _ (AList.lookup_insert _) rfl
  cases hses

theorem enforced_after_handshake : ∃ w,
    exec World.step {} (closedDatabase ++ [.handshake "web" "db", .elapse 60]) = some w ∧
      ∀ key i, w.mesh.routeRequest "web" "db" key = some i → w.Proper "web" "db" i := by
  obtain ⟨w, hw⟩ := Option.isSome_iff_exists.mp (show (exec World.step {}
    (closedDatabase ++ [.handshake "web" "db", .elapse 60])).isSome = true from rfl)
  refine ⟨w, hw, (enforced_iff_introduced hw "web" "db").mpr ?_⟩
  obtain rfl := Option.some.inj hw
  intro policy _ _ _ _
  exact ⟨_, _, AList.lookup_insert _, rfl, rfl, by decide⟩

end Example

end World

end HelixRouter.Mesh
