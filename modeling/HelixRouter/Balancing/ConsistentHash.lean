import HelixRouter.Balancing.LoadBalancer
import HelixRouter.Containers.Rounds
import Mathlib.Data.List.Induction

namespace HelixRouter.Balancing

section Ring

variable [RingHash] {bs : List Backend} {b d : Backend} {h : UInt64} {i : Nat}

omit [RingHash] in
theorem getElem?_insert_all {hashes : List UInt64} {ring : Std.TreeMap UInt64 Nat} :
    (hashes.foldl (·.insert · i) ring)[h]? = if h ∈ hashes then some i else ring[h]? := by
  induction hashes generalizing ring with
  | nil => simp
  | cons g hashes ih =>
    rw [List.foldl_cons, ih, Std.TreeMap.getElem?_insert]
    by_cases hmem : h ∈ hashes
    · simp [hmem]
    · by_cases hg : h = g
      · simp [hg]
      · have hne : compare g h ≠ .eq := fun he => hg (Std.LawfulEqOrd.eq_of_compare he).symm
        simp [hmem, hg, hne]

/-- The ring of a list with one more backend: its virtual nodes take what they collide with. -/
theorem ringOf_append : (Inner.ringOf (bs ++ [b]))[h]? =
    if h ∈ b.vnodes then some bs.length else (Inner.ringOf bs)[h]? := by
  unfold Inner.ringOf
  rw [List.zipIdx_append, List.foldl_append]
  simp [getElem?_insert_all]

theorem ringOf_lt (hi : (Inner.ringOf bs)[h]? = some i) : i < bs.length := by
  induction bs using List.reverseRecOn with
  | nil => simp [Inner.ringOf] at hi
  | append_singleton bs b ih =>
    rw [ringOf_append] at hi
    rw [List.length_append, List.length_singleton]
    split at hi
    · cases hi
      exact Nat.lt_succ_self _
    · exact Nat.lt_succ_of_lt (ih hi)

/-- The backend a point of the ring belongs to. -/
def pointOwner (bs : List Backend) (h : UInt64) : Option Backend := do
  let idx ← (Inner.ringOf bs)[h]?
  bs[idx]?

theorem pointOwner_append :
    pointOwner (bs ++ [b]) h = if h ∈ b.vnodes then some b else pointOwner bs h := by
  unfold pointOwner
  rw [ringOf_append]
  split
  · simp
  · cases hi : (Inner.ringOf bs)[h]? with
    | none => rfl
    | some i =>
      have hlt := ringOf_lt hi
      simp [List.getElem?_append_left hlt]

theorem mem_ringOf : h ∈ Inner.ringOf bs ↔ ∃ b ∈ bs, h ∈ b.vnodes := by
  rw [Std.TreeMap.mem_iff_isSome_getElem?]
  induction bs using List.reverseRecOn with
  | nil => simp [Inner.ringOf]
  | append_singleton bs b ih =>
    rw [ringOf_append]
    by_cases hb : h ∈ b.vnodes
    · simp [hb]
    · rw [if_neg hb, ih]
      simp [hb]

/-- A point keeps its owner when backends other than the owner go. -/
theorem pointOwner_filter {keep : Backend → Bool} (ho : pointOwner bs h = some d)
    (hd : keep d = true) : pointOwner (bs.filter keep) h = some d := by
  induction bs using List.reverseRecOn with
  | nil => simp [pointOwner, Inner.ringOf] at ho
  | append_singleton bs b ih =>
    rw [pointOwner_append] at ho
    rw [List.filter_append]
    by_cases hb : h ∈ b.vnodes
    · rw [if_pos hb] at ho
      cases ho
      rw [List.filter_singleton, hd, cond_true, pointOwner_append, if_pos hb]
    · rw [if_neg hb] at ho
      rw [List.filter_singleton]
      cases hk : keep b with
      | false => simpa using ih ho
      | true => rw [cond_true, pointOwner_append, if_neg hb, ih ho]

theorem vnodes_ne_nil : b.vnodes ≠ [] := by
  unfold Backend.vnodes
  simp

end Ring

section Selection

variable [RingHash] {bs : List Backend} {b d : Backend} {key : Option String}

/-- The backend that a key's place on the ring belongs to. -/
def ownerIn (bs : List Backend) (key : Option String) : Option Backend := do
  let (_, idx) ← (Inner.ringOf bs).firstFrom (hashOf (key.getD ""))
  bs[idx]?

theorem ownerIn_eq_some : ownerIn bs key = some d ↔ ∃ p i,
    (Inner.ringOf bs).firstFrom (hashOf (key.getD "")) = some (p, i) ∧ pointOwner bs p = some d := by
  unfold ownerIn pointOwner
  constructor
  · intro ho
    obtain ⟨⟨p, i⟩, hfirst, hd⟩ := Option.bind_eq_some_iff.mp ho
    refine ⟨p, i, hfirst, ?_⟩
    rw [(Std.TreeMap.isNext_of_firstFrom hfirst).2]
    exact hd
  · intro ⟨p, i, hfirst, hd⟩
    rw [(Std.TreeMap.isNext_of_firstFrom hfirst).2] at hd
    rw [hfirst]
    exact hd

/-- A key keeps its owner when backends other than the owner go. -/
theorem ownerIn_filter {keep : Backend → Bool} (ho : ownerIn bs key = some d)
    (hd : keep d = true) : ownerIn (bs.filter keep) key = some d := by
  obtain ⟨p, i, hfirst, hp⟩ := ownerIn_eq_some.mp ho
  have hp' := pointOwner_filter hp hd
  obtain ⟨j, hj, -⟩ := Option.bind_eq_some_iff.mp hp'
  have hsub : ∀ q, q ∈ Inner.ringOf (bs.filter keep) → q ∈ Inner.ringOf bs := by
    intro q hq
    obtain ⟨b, hb, hv⟩ := mem_ringOf.mp hq
    exact mem_ringOf.mpr ⟨b, (List.mem_filter.mp hb).1, hv⟩
  exact ownerIn_eq_some.mpr ⟨p, j, Std.TreeMap.firstFrom_fewer hfirst hsub hj, hp'⟩

theorem ownerIn_isSome (hb : b ∈ bs) (key : Option String) : (ownerIn bs key).isSome := by
  obtain ⟨h, hh⟩ := List.exists_mem_of_ne_nil _ (vnodes_ne_nil (b := b))
  have hring : h ∈ Inner.ringOf bs := mem_ringOf.mpr ⟨b, hb, hh⟩
  obtain ⟨⟨p, i⟩, hfirst⟩ := Option.isSome_iff_exists.mp
    (Std.TreeMap.firstFrom_isSome (k := hashOf (key.getD "")) hring)
  have hlt := ringOf_lt (Std.TreeMap.isNext_of_firstFrom hfirst).2
  unfold ownerIn
  rw [hfirst]
  simp [hlt]

theorem mem_of_ownerIn (ho : ownerIn bs key = some d) : d ∈ bs := by
  obtain ⟨⟨p, i⟩, -, hd⟩ := Option.bind_eq_some_iff.mp ho
  exact List.mem_of_getElem? hd

/-- What consistent hashing selects: the owner if it is healthy, the first healthy
backend otherwise. -/
def selectedIn (bs : List Backend) (key : Option String) : Option Backend := do
  let backend ← ownerIn bs key
  if backend.healthy then some backend else (bs.filter (·.healthy)).head?

theorem mem_of_selectedIn (hs : selectedIn bs key = some d) : d ∈ bs := by
  obtain ⟨e, he, hd⟩ := Option.bind_eq_some_iff.mp hs
  split at hd
  · cases hd
    exact mem_of_ownerIn he
  · exact List.mem_of_mem_filter (List.mem_of_mem_head? hd)

omit [RingHash] in
theorem head_filter_filter {keep : Backend → Bool} {first : Option Backend}
    (hf : (bs.filter (·.healthy)).head? = first) (hkeep : ∀ e, first = some e → keep e = true) :
    ((bs.filter keep).filter (·.healthy)).head? = first := by
  rw [List.filter_comm]
  cases hl : bs.filter (·.healthy) with
  | nil => simpa [hl] using hf
  | cons e rest =>
    rw [hl, List.head?_cons] at hf
    rw [List.filter_cons, if_pos (hkeep e hf.symm), List.head?_cons, hf]

/-- Keys whose owner and selection both stay keep their selection. -/
theorem selectedIn_filter {keep : Backend → Bool}
    (howner : ∀ d, ownerIn bs key = some d → keep d = true)
    (hselected : ∀ d, selectedIn bs key = some d → keep d = true) :
    selectedIn (bs.filter keep) key = selectedIn bs key := by
  cases ho : ownerIn bs key with
  | none =>
    have hempty : bs = [] := by
      by_contra hne
      obtain ⟨b, hb⟩ := List.exists_mem_of_ne_nil _ hne
      simpa [ho] using ownerIn_isSome hb key
    simp [hempty]
  | some d =>
    have ho' := ownerIn_filter ho (howner d ho)
    unfold selectedIn at hselected ⊢
    rw [ho] at hselected ⊢
    rw [ho']
    cases hh : d.healthy with
    | true => simp [hh]
    | false =>
      simp only [Option.bind_eq_bind, Option.bind_some, hh, Bool.false_eq_true, if_false] at hselected ⊢
      exact head_filter_filter rfl hselected

/-- Taking away the backends with an id moves only the keys that were sent there, and those
that an unhealthy backend with that id passed on. -/
theorem selectedIn_remove (bs : List Backend) (id : String) (key : Option String) :
    selectedIn (bs.filter (·.id ≠ id)) key = selectedIn bs key ∨ ∃ b ∈ bs, b.id = id ∧
      (selectedIn bs key = some b ∨ b.healthy = false ∧ ownerIn bs key = some b) := by
  by_cases howner : ∀ d, ownerIn bs key = some d → d.id ≠ id
  · by_cases hselected : ∀ d, selectedIn bs key = some d → d.id ≠ id
    · left
      exact selectedIn_filter (fun d hd => decide_eq_true (howner d hd))
        fun d hd => decide_eq_true (hselected d hd)
    · push Not at hselected
      obtain ⟨d, hd, hid⟩ := hselected
      exact Or.inr ⟨d, mem_of_selectedIn hd, hid, Or.inl hd⟩
  · push Not at howner
    obtain ⟨d, hd, hid⟩ := howner
    refine Or.inr ⟨d, mem_of_ownerIn hd, hid, ?_⟩
    cases hh : d.healthy with
    | true => exact Or.inl (by simp [selectedIn, hd, hh])
    | false => exact Or.inr ⟨rfl, hd⟩

/-- A backend after the one with an id is marked unhealthy. -/
def marked (id : String) (d : Backend) : Backend :=
  if d.id = id then { d with healthy := false } else d

omit [RingHash] in
theorem updateFirst_eq_map {id : String} {f : Backend → Backend} (hd : (bs.map (·.id)).Nodup) :
    updateFirst id f bs = bs.map fun d => if d.id = id then f d else d := by
  induction bs with
  | nil => rfl
  | cons b bs ih =>
    obtain ⟨hb, hbs⟩ := List.nodup_cons.mp hd
    unfold updateFirst
    by_cases hid : b.id = id
    · rw [if_pos hid, List.map_cons, if_pos hid]
      have hrest : bs.map (fun d => if d.id = id then f d else d) = bs.map fun d => d :=
        List.map_congr_left fun d hd =>
          if_neg fun he => hb (List.mem_map.mpr ⟨d, hd, he.trans hid.symm⟩)
      rw [hrest, List.map_id']
    · rw [if_neg hid, List.map_cons, if_neg hid, ih hbs]

omit [RingHash] in
theorem filter_marked (bs : List Backend) (id : String) :
    (bs.map (marked id)).filter (·.healthy) = (bs.filter (·.id ≠ id)).filter (·.healthy) := by
  induction bs with
  | nil => rfl
  | cons b bs ih =>
    by_cases hid : b.id = id
    · simp [marked, hid, ih]
    · rw [List.filter_cons_of_pos (by simpa using hid), List.map_cons, marked, if_neg hid,
        List.filter_cons, List.filter_cons, ih]

theorem ringOf_congr {bs' : List Backend} (hv : bs.map (·.vnodes) = bs'.map (·.vnodes)) :
    Inner.ringOf bs = Inner.ringOf bs' := by
  have hfold : ∀ cs : List Backend, Inner.ringOf cs = (cs.map (·.vnodes)).zipIdx.foldl
      (fun ring e => e.1.foldl (·.insert · e.2) ring) ∅ := by
    intro cs
    unfold Inner.ringOf
    rw [List.zipIdx_map, List.foldl_map]
    rfl
  rw [hfold, hfold, hv]

theorem ownerIn_map {f : Backend → Backend} (hf : ∀ b, (f b).vnodes = b.vnodes) :
    ownerIn (bs.map f) key = (ownerIn bs key).map f := by
  have hring : Inner.ringOf (bs.map f) = Inner.ringOf bs :=
    ringOf_congr (by rw [List.map_map]; exact List.map_congr_left fun b _ => hf b)
  unfold ownerIn
  rw [hring]
  cases (Inner.ringOf bs).firstFrom (hashOf (key.getD "")) with
  | none => rfl
  | some e => simp

/-- Marking a backend unhealthy moves only the keys that were sent there. -/
theorem selectedIn_marked (bs : List Backend) (id : String) (key : Option String) :
    selectedIn (bs.map (marked id)) key = selectedIn bs key ∨
      ∃ b ∈ bs, b.id = id ∧ selectedIn bs key = some b := by
  by_cases hselected : ∀ d, selectedIn bs key = some d → d.id ≠ id
  · left
    have howner : ownerIn (bs.map (marked id)) key = (ownerIn bs key).map (marked id) :=
      ownerIn_map fun b => by unfold marked; split <;> rfl
    unfold selectedIn at hselected ⊢
    rw [howner]
    cases ho : ownerIn bs key with
    | none => rfl
    | some d =>
      simp only [ho, Option.bind_eq_bind, Option.bind_some, Option.map_some] at hselected ⊢
      cases hh : d.healthy with
      | true =>
        have hid : d.id ≠ id := hselected d (by rw [hh, if_pos rfl])
        rw [marked, if_neg hid, hh]
        rfl
      | false =>
        have hsick : (marked id d).healthy = false := by
          unfold marked
          split
          · rfl
          · exact hh
        simp only [hh, hsick, Bool.false_eq_true, if_false] at hselected ⊢
        rw [filter_marked]
        exact head_filter_filter rfl fun e he => decide_eq_true (hselected e he)
  · push Not at hselected
    obtain ⟨d, hd, hid⟩ := hselected
    exact Or.inr ⟨d, mem_of_selectedIn hd, hid, hd⟩

end Selection

/-- The calls a load balancer takes. -/
inductive Op
  | addBackend (backend : Backend)
  | removeBackend (id : String)
  | select (key : Option String)
  | markHealthy (id : String) (healthy : Bool)
  | acquireConnection (id : String)
  | releaseConnection (id : String)

section Runs

variable [RingHash] {lb : LoadBalancer}

def Op.apply (lb : LoadBalancer) : Op → LoadBalancer
  | addBackend backend => lb.addBackend backend
  | removeBackend id => lb.removeBackend id
  | select key => (lb.select key).2
  | markHealthy id healthy => lb.markHealthy id healthy
  | acquireConnection id => lb.acquireConnection id
  | releaseConnection id => lb.releaseConnection id

def run (strategy : LbStrategy) (ops : List Op) : LoadBalancer :=
  ops.foldl Op.apply { strategy := strategy }

/-- The ring is the one of the backends as they are, whatever happened since it was built. -/
structure Placed (lb : LoadBalancer) : Prop where
  hashes : lb.strategy = .consistentHash
  ring_eq : lb.inner.ring = Inner.ringOf lb.inner.backends

theorem Placed.update (hp : Placed lb) (id : String) {f : Backend → Backend}
    (hf : ∀ b, (f b).vnodes = b.vnodes) : Placed (lb.updateBackend id f) where
  hashes := hp.hashes
  ring_eq := by
    refine hp.ring_eq.trans (ringOf_congr ?_)
    change _ = (updateFirst id f lb.inner.backends).map _
    generalize lb.inner.backends = bs
    induction bs with
    | nil => rfl
    | cons b bs ih =>
      unfold updateFirst
      split
      · rw [List.map_cons, List.map_cons, hf]
      · rw [List.map_cons, List.map_cons, ih]

theorem Placed.select_eq (hp : Placed lb) (key : Option String) :
    lb.select key = (selectedIn lb.inner.backends key, lb) := by
  unfold LoadBalancer.select selectedIn ownerIn
  rw [hp.hashes, ← hp.ring_eq]
  rfl

theorem Placed.apply (hp : Placed lb) (op : Op) : Placed (op.apply lb) := by
  cases op with
  | addBackend backend => exact ⟨hp.hashes, rfl⟩
  | removeBackend id => exact ⟨hp.hashes, rfl⟩
  | select key =>
    change Placed (lb.select key).2
    rw [hp.select_eq]
    exact hp
  | markHealthy id healthy => exact hp.update id fun b => rfl
  | acquireConnection id => exact hp.update id fun b => rfl
  | releaseConnection id => exact hp.update id fun b => rfl

theorem placed_run (ops : List Op) : Placed (run .consistentHash ops) := by
  have hfold : ∀ lb, Placed lb → Placed (ops.foldl Op.apply lb) := by
    induction ops with
    | nil => exact fun lb hp => hp
    | cons op ops ih => exact fun lb hp => ih _ (hp.apply op)
  exact hfold _ ⟨rfl, rfl⟩

/-- What a removal, an addition and a failure may do to the selections: they move keys only
away from the backend, or to it; one that comes or goes unhealthy moves those it owns. -/
structure MovesOnlyItsOwn (lb : LoadBalancer) : Prop where
  removed : ∀ id key, ((lb.removeBackend id).select key).1 = (lb.select key).1 ∨
    ∃ b ∈ lb.inner.backends, b.id = id ∧ ((lb.select key).1 = some b ∨
      b.healthy = false ∧ lb.owner key = some b)
  added : ∀ b key, b.id ∉ lb.inner.backends.map (·.id) →
    ((lb.addBackend b).select key).1 = (lb.select key).1 ∨
      ((lb.addBackend b).select key).1 = some b ∨
        b.healthy = false ∧ (lb.addBackend b).owner key = some b
  failed : ∀ id key, ((lb.markHealthy id false).select key).1 = (lb.select key).1 ∨
    ∃ b ∈ lb.inner.backends, b.id = id ∧ (lb.select key).1 = some b

theorem Placed.owner_eq (hp : Placed lb) (key : Option String) :
    lb.owner key = ownerIn lb.inner.backends key := by
  unfold LoadBalancer.owner ownerIn
  rw [hp.ring_eq]

theorem Placed.movesOnlyItsOwn (hp : Placed lb) (hd : (lb.inner.backends.map (·.id)).Nodup) :
    MovesOnlyItsOwn lb where
  removed id key := by
    have hremove : Placed (lb.removeBackend id) := hp.apply (.removeBackend id)
    rw [hremove.select_eq, hp.select_eq, hp.owner_eq]
    exact selectedIn_remove lb.inner.backends id key
  added b key hb := by
    have hadd : Placed (lb.addBackend b) := hp.apply (.addBackend b)
    have hback : (lb.inner.backends ++ [b]).filter (·.id ≠ b.id) = lb.inner.backends := by
      rw [List.filter_append, List.filter_eq_self.mpr]
      · simp
      · intro d hd'
        exact decide_eq_true fun he => hb (List.mem_map.mpr ⟨d, hd', he⟩)
    rw [hadd.select_eq, hp.select_eq, hadd.owner_eq]
    rcases selectedIn_remove (lb.inner.backends ++ [b]) b.id key with hsame | ⟨c, hc, hid, hmoved⟩
    · rw [hback] at hsame
      exact Or.inl hsame.symm
    · rcases List.mem_append.mp hc with hc | hc
      · exact absurd (List.mem_map.mpr ⟨c, hc, hid⟩) hb
      · cases List.mem_singleton.mp hc
        exact Or.inr hmoved
  failed id key := by
    have hmark : Placed (lb.markHealthy id false) := hp.apply (.markHealthy id false)
    rw [hmark.select_eq, hp.select_eq]
    change selectedIn (updateFirst id _ lb.inner.backends) key = _ ∨ _
    rw [updateFirst_eq_map hd]
    exact selectedIn_marked lb.inner.backends id key

/-- Consistent hashing moves only what it must, whatever the weights, the hash and the health
of the other backends. -/
theorem moves_only_its_own (ops : List Op)
    (hd : ((run .consistentHash ops).inner.backends.map (·.id)).Nodup) :
    MovesOnlyItsOwn (run .consistentHash ops) := (placed_run ops).movesOnlyItsOwn hd

end Runs

instance fnvHash : RingHash := ⟨fnv1a⟩

/-- Three backends; the second is marked unhealthy. -/
def failing : List Op :=
  [.addBackend (Backend.new "c" "10.0.0.3:80" 1), .addBackend (Backend.new "b" "10.0.0.2:80" 2),
    .addBackend (Backend.new "a" "10.0.0.1:80" 1), .markHealthy "b" false]

theorem moves_failing : MovesOnlyItsOwn (run .consistentHash failing) :=
  moves_only_its_own failing (by decide +kernel)

def selectedId (ops : List Op) (key : String) : Option String :=
  ((run .consistentHash ops).select (some key)).1.map (·.id)

/-- A key that an unhealthy backend passes on to the first one moves when it is removed. -/
theorem removal_moves_passed_on :
    ((run .consistentHash failing).inner.backends.map (·.id)).Nodup ∧
      selectedId failing "user-0" = some "c" ∧
      selectedId (failing ++ [.removeBackend "b"]) "user-0" = some "a" := by
  refine ⟨?_, ?_, ?_⟩ <;> decide +kernel

/-- Each backend as often as it weighs. -/
def shares (backends : List Backend) : List Backend :=
  backends.flatMap fun b => List.replicate b.weight.toNat b

def weightOf (backends : List Backend) : Nat := (backends.map (·.weight.toNat)).sum

variable {bs : List Backend}

theorem length_shares (bs : List Backend) : (shares bs).length = weightOf bs :=
  Containers.length_sharesOf (fun b : Backend => b.weight.toNat) bs

theorem count_shares (bs : List Backend) (b : Backend) :
    (shares bs).count b = bs.count b * b.weight.toNat :=
  Containers.count_sharesOf (fun b : Backend => b.weight.toNat) bs b

/-- The scan finds the backend at a position of the shares. -/
theorem scan_eq (bs : List Backend) (pos : UInt64) : scan bs pos = (shares bs)[pos.toNat]? := by
  induction bs generalizing pos with
  | nil => rfl
  | cons b bs ih =>
    have hcons : shares (b :: bs) = List.replicate b.weight.toNat b ++ shares bs := rfl
    have hw : b.weight.toUInt64.toNat = b.weight.toNat := UInt32.toNat_toUInt64 _
    rw [scan, hcons]
    by_cases hlt : pos < b.weight.toUInt64
    · have hlt' : pos.toNat < b.weight.toNat := hw ▸ UInt64.lt_iff_toNat_lt.mp hlt
      rw [if_pos hlt, List.getElem?_append_left (by simpa using hlt')]
      simp [hlt']
    · have hle : b.weight.toUInt64 ≤ pos := UInt64.not_lt.mp hlt
      have hle' : b.weight.toNat ≤ pos.toNat := hw ▸ UInt64.le_iff_toNat_le.mp hle
      rw [if_neg hlt, ih, List.getElem?_append_right (by simpa using hle'),
        UInt64.toNat_sub_of_le _ _ hle, hw, List.length_replicate]

/-- Weights that fit a word are summed without wrapping. -/
theorem toNat_sum_weights (h : weightOf bs < 2 ^ 64) :
    UInt64.toNat (bs.map (·.weight.toUInt64)).sum = weightOf bs := by
  induction bs with
  | nil => rfl
  | cons b bs ih =>
    have hcons : weightOf (b :: bs) = b.weight.toNat + weightOf bs := by
      simp [weightOf]
    rw [hcons] at h
    rw [List.map_cons, List.sum_cons, UInt64.toNat_add, ih (by omega), hcons,
      UInt32.toNat_toUInt64, Nat.mod_eq_of_lt h]

namespace LoadBalancer

section Window

variable [RingHash] {lb : LoadBalancer}

/-- Selections one after the other, with nothing in between. -/
def selections (lb : LoadBalancer) : List (Option String) → List (Option Backend)
  | [] => []
  | key :: keys => (lb.select key).1 :: (lb.select key).2.selections keys

/-- The backend that a reading of the counter points at. -/
def scanned (lb : LoadBalancer) (tick : UInt64) : Option Backend :=
  let healthy := lb.inner.healthyBackends
  scan healthy (tick % (healthy.map (·.weight.toUInt64)).sum)

omit [RingHash] in
theorem scanned_eq (hlt : weightOf lb.inner.healthyBackends < 2 ^ 64) (tick : UInt64) :
    lb.scanned tick =
      (shares lb.inner.healthyBackends)[tick.toNat % weightOf lb.inner.healthyBackends]? := by
  rw [scanned, scan_eq, UInt64.toNat_mod, toNat_sum_weights hlt]

omit [RingHash] in
/-- The scan always ends at a backend. -/
theorem scanned_isSome (hpos : 0 < weightOf lb.inner.healthyBackends)
    (hlt : weightOf lb.inner.healthyBackends < 2 ^ 64) (tick : UInt64) :
    (lb.scanned tick).isSome := by
  have hin : tick.toNat % weightOf lb.inner.healthyBackends <
      (shares lb.inner.healthyBackends).length := by
    rw [length_shares]
    exact Nat.mod_lt _ hpos
  rw [scanned_eq hlt, List.getElem?_eq_getElem hin]
  rfl

theorem select_weighted (hs : lb.strategy = .weightedRoundRobin)
    (hpos : 0 < weightOf lb.inner.healthyBackends)
    (hlt : weightOf lb.inner.healthyBackends < 2 ^ 64) (key : Option String) :
    lb.select key = (lb.scanned lb.rrCounter, { lb with rrCounter := lb.rrCounter + 1 }) := by
  have hne : lb.inner.healthyBackends ≠ [] := by
    intro hnil
    rw [hnil] at hpos
    exact Nat.lt_irrefl _ hpos
  have htotal : (lb.inner.healthyBackends.map (·.weight.toUInt64)).sum ≠ 0 := by
    intro hzero
    have hnat := toNat_sum_weights hlt
    rw [hzero] at hnat
    exact Nat.ne_of_lt hpos hnat
  obtain ⟨b, hb⟩ := Option.isSome_iff_exists.mp (scanned_isSome hpos hlt lb.rrCounter)
  have hscan := hb
  rw [scanned] at hscan
  rw [select, hs, hb]
  simp [hne, htotal, hscan]

/-- As long as the counter does not wrap, the selections go round the shares. -/
theorem selections_weighted {keys : List (Option String)} (hs : lb.strategy = .weightedRoundRobin)
    (hpos : 0 < weightOf lb.inner.healthyBackends)
    (hlt : weightOf lb.inner.healthyBackends < 2 ^ 64)
    (hwrap : lb.rrCounter.toNat + keys.length < 2 ^ 64) :
    lb.selections keys = (List.range keys.length).map fun k =>
      (shares lb.inner.healthyBackends)[(k + lb.rrCounter.toNat) %
        weightOf lb.inner.healthyBackends]? := by
  induction keys generalizing lb with
  | nil => rfl
  | cons key keys ih =>
    rw [List.length_cons] at hwrap
    have hnext : (lb.rrCounter + 1).toNat = lb.rrCounter.toNat + 1 := by
      rw [UInt64.toNat_add]
      exact Nat.mod_eq_of_lt (by simp; omega)
    have hwrap' : (lb.rrCounter + 1).toNat + keys.length < 2 ^ 64 := by
      rw [hnext]
      omega
    have hrest := @ih { lb with rrCounter := lb.rrCounter + 1 } hs hpos hlt hwrap'
    rw [selections, select_weighted hs hpos hlt, scanned_eq hlt, List.length_cons,
      List.range_succ_eq_map, List.map_cons, List.map_map, Nat.zero_add, hrest]
    congr 1
    apply List.map_congr_left
    intro k _
    simp only [hnext, Function.comp_apply, Nat.succ_eq_add_one]
    congr 2
    omega

/-- A window of as many selections as the healthy backends weigh: each of them is selected as
often as it weighs, whatever the counter is at the start, and the scan never falls through. -/
theorem weighted_round_robin_exact (lb : LoadBalancer) (keys : List (Option String))
    (hs : lb.strategy = .weightedRoundRobin) (hpos : 0 < weightOf lb.inner.healthyBackends)
    (hkeys : keys.length = weightOf lb.inner.healthyBackends)
    (hwrap : lb.rrCounter.toNat + weightOf lb.inner.healthyBackends < 2 ^ 64) :
    (lb.selections keys).Perm ((shares lb.inner.healthyBackends).map some) ∧
      (∀ b, (lb.selections keys).count (some b) =
        lb.inner.healthyBackends.count b * b.weight.toNat) ∧
      ∀ tick, (lb.scanned tick).isSome := by
  have hlt : weightOf lb.inner.healthyBackends < 2 ^ 64 := by omega
  have hround : lb.selections keys =
      ((shares lb.inner.healthyBackends).rotate lb.rrCounter.toNat).map some := by
    rw [selections_weighted hs hpos hlt (by omega), hkeys]
    apply List.ext_getElem?
    intro k
    rw [List.getElem?_map, List.getElem?_map]
    by_cases hk : k < weightOf lb.inner.healthyBackends
    · have hk' : k < (shares lb.inner.healthyBackends).length := by rwa [length_shares]
      rw [List.getElem?_range hk, List.getElem?_rotate hk', length_shares, Option.map_some]
      have hin : (k + lb.rrCounter.toNat) % weightOf lb.inner.healthyBackends <
          (shares lb.inner.healthyBackends).length := by
        rw [length_shares]
        exact Nat.mod_lt _ hpos
      rw [List.getElem?_eq_getElem hin, Option.map_some]
    · rw [List.getElem?_eq_none (by simpa using hk),
        List.getElem?_eq_none (by simpa [length_shares] using hk)]
      rfl
  have hperm : (lb.selections keys).Perm ((shares lb.inner.healthyBackends).map some) := by
    rw [hround]
    exact (List.rotate_perm _ _).map some
  refine ⟨hperm, fun b => ?_, scanned_isSome hpos hlt⟩
  rw [hperm.count_eq, List.count_map_of_injective, count_shares]
  exact Option.some_injective _

end Window

/-- The unhealthy backend in the middle weighs most. -/
def tilted : LoadBalancer where
  strategy := .weightedRoundRobin
  rrCounter := 5
  inner := { backends := [.new "a" "" 2, { Backend.new "b" "" 7 with healthy := false },
    .new "c" "" 1] }

theorem weighted_round_robin_exact_tilted :
    (tilted.selections [none, none, none]).count (some (.new "a" "" 2)) = 2 := by
  have hexact := weighted_round_robin_exact tilted [none, none, none] rfl (by decide) (by decide)
    (by decide)
  exact hexact.2.1 (.new "a" "" 2)

end LoadBalancer

end HelixRouter.Balancing
