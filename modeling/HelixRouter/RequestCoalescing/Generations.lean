import HelixRouter.RequestCoalescing.RequestCoalescer
import Mathlib.Data.List.Induction
import Mathlib.Data.List.Nodup

namespace HelixRouter.RequestCoalescing

variable {Content Key : Type} [DecidableEq Key]

namespace History

/-- Those that wait at an entry were added to it, and were sent nothing yet. -/
structure Sound (h : History Key) : Prop where
  channels : h.coalescer.channels = h.joined.length
  led : ∀ key p, h.coalescer.inFlight.lookup key = some p →
    ∃ leader, p.waiters.head? = some leader ∧
      ∀ w ∈ p.waiters, h.joined[w]? = some (key, leader)
  nodup : ∀ key p, h.coalescer.inFlight.lookup key = some p → p.waiters.Nodup
  once : (h.sent.map (·.receiver)).Nodup
  known : ∀ d ∈ h.sent, d.receiver < h.joined.length
  waiting : ∀ key p, h.coalescer.inFlight.lookup key = some p →
    ∀ w ∈ p.waiters, ∀ d ∈ h.sent, d.receiver ≠ w

variable {h : History Key} {hashKey : Content → Key} {content : Content} {key : Key} {now : Nat}
  {result : Fetched} {source : Source} {p : PendingRequest Key}

theorem Sound.lt (hs : h.Sound) (hp : h.coalescer.inFlight.lookup key = some p) :
    ∀ w ∈ p.waiters, w < h.joined.length := by
  intro w hw
  obtain ⟨leader, -, hjoined⟩ := hs.led key p hp
  exact (List.getElem?_eq_some_iff.mp (hjoined w hw)).1

theorem sound_empty : ({} : History Key).Sound where
  channels := rfl
  led key p hp := by simp at hp
  nodup key p hp := by simp at hp
  once := List.nodup_nil
  known d hd := (nomatch hd)
  waiting key p hp := by simp at hp

/-- One key is settled: what a completion and each round of a prune do. -/
def settle (h : History Key) (key : Key) (result : Fetched) (source : Source) : History Key :=
  h.deliver source (h.coalescer.complete key result)

theorem settle_of_none (hp : h.coalescer.inFlight.lookup key = none) :
    h.settle key result source = h := by
  unfold settle deliver RequestCoalescer.complete
  rw [hp]
  simp

theorem settle_of_some (hp : h.coalescer.inFlight.lookup key = some p) :
    h.settle key result source =
      { coalescer := { h.coalescer with inFlight := h.coalescer.inFlight.erase key }
        joined := h.joined
        sent := h.sent ++ p.waiters.map (⟨·, result, source⟩) } := by
  unfold settle deliver RequestCoalescer.complete
  rw [hp]
  simp [Function.comp_def]

theorem Sound.settle (hs : h.Sound) : (h.settle key result source).Sound := by
  cases hp : h.coalescer.inFlight.lookup key with
  | none => rwa [settle_of_none hp]
  | some p =>
    rw [settle_of_some hp]
    have hother : ∀ k q, (h.coalescer.inFlight.erase key).lookup k = some q →
        k ≠ key ∧ h.coalescer.inFlight.lookup k = some q := by
      intro k q hq
      have hk : k ≠ key := by
        rintro rfl
        rw [AList.lookup_erase] at hq
        cases hq
      exact ⟨hk, by rwa [AList.lookup_erase_ne hk] at hq⟩
    have hreceivers : (p.waiters.map fun w => (⟨w, result, source⟩ : Delivery)).map
        (·.receiver) = p.waiters := by simp [Function.comp_def]
    refine ⟨hs.channels, fun k q hq => hs.led k q (hother k q hq).2,
      fun k q hq => hs.nodup k q (hother k q hq).2, ?_, ?_, ?_⟩
    · rw [List.map_append, hreceivers]
      refine hs.once.append (hs.nodup key p hp) ?_
      intro w hsent hwaiter
      obtain ⟨d, hd, rfl⟩ := List.mem_map.mp hsent
      exact hs.waiting key p hp _ hwaiter d hd rfl
    · intro d hd
      rcases List.mem_append.mp hd with hd | hd
      · exact hs.known d hd
      · obtain ⟨w, hw, rfl⟩ := List.mem_map.mp hd
        exact hs.lt hp w hw
    · intro k q hq w hw d hd
      obtain ⟨hk, hq⟩ := hother k q hq
      rcases List.mem_append.mp hd with hd | hd
      · exact hs.waiting k q hq w hw d hd
      · obtain ⟨u, hu, rfl⟩ := List.mem_map.mp hd
        rintro rfl
        obtain ⟨_, _, hjoined⟩ := hs.led key p hp
        obtain ⟨_, _, hjoined'⟩ := hs.led k q hq
        have hsame := Option.some.inj ((hjoined' _ hw).symm.trans (hjoined _ hu))
        exact hk (congrArg Prod.fst hsame)

/-- A caller is added to an entry of the key, behind those that wait there. -/
theorem Sound.join {s : RequestCoalescer Key} {leader : ChannelId} (hs : h.Sound)
    (waiters : List ChannelId) (hflight : s.inFlight = h.coalescer.inFlight.insert key p)
    (hchannels : s.channels = h.coalescer.channels + 1)
    (hwaiters : p.waiters = waiters ++ [h.joined.length])
    (hhead : p.waiters.head? = some leader)
    (hled : ∀ w ∈ waiters, h.joined[w]? = some (key, leader)) (hnodup : waiters.Nodup)
    (hunsent : ∀ w ∈ waiters, ∀ d ∈ h.sent, d.receiver ≠ w) :
    ({ h with coalescer := s, joined := h.joined ++ [(key, leader)] } : History Key).Sound := by
  have hlt : ∀ w ∈ waiters, w < h.joined.length :=
    fun w hw => (List.getElem?_eq_some_iff.mp (hled w hw)).1
  have hkept : ∀ w < h.joined.length, (h.joined ++ [(key, leader)])[w]? = h.joined[w]? :=
    fun w hw => List.getElem?_append_left hw
  have hlookup : ∀ k q, s.inFlight.lookup k = some q →
      k = key ∧ q = p ∨ k ≠ key ∧ h.coalescer.inFlight.lookup k = some q := by
    intro k q hq
    rw [hflight] at hq
    by_cases hk : k = key
    · subst hk
      rw [AList.lookup_insert] at hq
      exact .inl ⟨rfl, (Option.some.inj hq).symm⟩
    · rw [AList.lookup_insert_ne hk] at hq
      exact .inr ⟨hk, hq⟩
  refine ⟨?_, ?_, ?_, hs.once, ?_, ?_⟩
  · rw [hchannels, hs.channels, List.length_append, List.length_singleton]
  · intro k q hq
    rcases hlookup k q hq with ⟨rfl, rfl⟩ | ⟨-, hq⟩
    · refine ⟨leader, hhead, fun w hw => ?_⟩
      rw [hwaiters] at hw
      rcases List.mem_append.mp hw with hw | hw
      · rw [hkept w (hlt w hw)]
        exact hled w hw
      · rw [List.mem_singleton.mp hw, List.getElem?_concat_length]
    · obtain ⟨other, hother, hjoined⟩ := hs.led k q hq
      refine ⟨other, hother, fun w hw => ?_⟩
      rw [hkept w (hs.lt hq w hw)]
      exact hjoined w hw
  · intro k q hq
    rcases hlookup k q hq with ⟨rfl, rfl⟩ | ⟨-, hq⟩
    · rw [hwaiters]
      refine hnodup.append (List.nodup_singleton _) fun w hw hnew => ?_
      exact absurd (hlt w hw) (List.mem_singleton.mp hnew ▸ Nat.lt_irrefl _)
    · exact hs.nodup k q hq
  · intro d hd
    exact Nat.lt_of_lt_of_le (hs.known d hd) (by simp)
  · intro k q hq w hw d hd
    rcases hlookup k q hq with ⟨rfl, rfl⟩ | ⟨-, hq⟩
    · rw [hwaiters] at hw
      rcases List.mem_append.mp hw with hw | hw
      · exact hunsent w hw d hd
      · rw [List.mem_singleton.mp hw]
        exact Nat.ne_of_lt (hs.known d hd)
    · exact hs.waiting k q hq w hw d hd

/-- Joining or leading, a caller is added to the entry that is then in flight. -/
theorem Sound.submitOrJoin (hs : h.Sound) (hashKey : Content → Key) (content : Content)
    (now : Nat) : (h.step hashKey ⟨now, .submitOrJoin content⟩).Sound ∧
      (h.step hashKey ⟨now, .submitOrJoin content⟩).sent = h.sent ∧
      ∃ entry, (h.step hashKey ⟨now, .submitOrJoin content⟩).joined = h.joined ++ [entry] := by
  unfold step RequestCoalescer.submitOrJoin
  dsimp only
  cases hp : h.coalescer.inFlight.lookup (hashKey content) with
  | some p =>
    obtain ⟨leader, hhead, hled⟩ := hs.led _ p hp
    have hfirst : (p.waiters ++ [h.coalescer.channels]).head? = some leader := by
      rw [List.head?_append, hhead]
      rfl
    dsimp only
    unfold RequestCoalescer.leader
    simp only [AList.lookup_insert, Option.bind_some, hfirst, Option.getD_some]
    refine ⟨hs.join p.waiters rfl rfl ?_ hfirst hled (hs.nodup _ p hp) (hs.waiting _ p hp),
      trivial, _, rfl⟩
    rw [hs.channels]
  | none =>
    dsimp only
    unfold RequestCoalescer.leader
    simp only [AList.lookup_insert, Option.bind_some, List.head?_cons, Option.getD_some]
    refine ⟨hs.join [] rfl rfl ?_ rfl (fun w hw => (nomatch hw)) List.nodup_nil
      (fun w hw => (nomatch hw)), trivial, _, rfl⟩
    rw [hs.channels]
    rfl

/-- A prune settles one stale key after the other. -/
def settleAll (h : History Key) (keys : List Key) : History Key :=
  keys.foldl (fun h key => h.settle key staleEntry .prune) h

def staleKeys (h : History Key) (order : IterationOrder (Σ _ : Key, PendingRequest Key))
    (maxAgeMs now : Nat) : List Key :=
  ((order.arrange h.coalescer.inFlight.entries).filter fun e =>
    RequestCoalescer.isStale maxAgeMs now e.2).map (·.1)

theorem deliver_fold (keys : List Key) (messages : List Message) (s : RequestCoalescer Key) :
    h.deliver .prune (keys.foldl (fun (sent, s) key =>
      let (messages, s) := s.complete key staleEntry
      (sent ++ messages, s)) (messages, s)) =
      (h.deliver .prune (messages, s)).settleAll keys := by
  induction keys generalizing messages s with
  | nil => rfl
  | cons key keys ih =>
    rw [List.foldl_cons, ih]
    change _ = ((h.deliver .prune (messages, s)).settle key staleEntry .prune).settleAll keys
    congr 1
    simp [settle, deliver]

theorem step_pruneStale (hashKey : Content → Key)
    (order : IterationOrder (Σ _ : Key, PendingRequest Key)) (maxAgeMs : Nat) :
    h.step hashKey ⟨now, .pruneStale maxAgeMs order⟩ =
      h.settleAll (h.staleKeys order maxAgeMs now) := by
  have hstart : h.deliver .prune ([], h.coalescer) = h := by simp [deliver]
  refine (deliver_fold _ [] h.coalescer).trans ?_
  rw [hstart]
  rfl

theorem mem_sent_settle {d : Delivery} (hd : d ∈ h.sent) :
    d ∈ (h.settle key result source).sent := List.mem_append_left _ hd

section SettleAll

variable {keys : List Key}

theorem Sound.settleAll (hs : h.Sound) : (h.settleAll keys).Sound := by
  induction keys generalizing h with
  | nil => exact hs
  | cons key keys ih => exact ih hs.settle

theorem mem_sent_settleAll {d : Delivery} (hd : d ∈ h.sent) : d ∈ (h.settleAll keys).sent := by
  induction keys generalizing h with
  | nil => exact hd
  | cons key keys ih => exact ih (mem_sent_settle hd)

/-- Settling other keys leaves an entry as it is, so that its turn comes with all that wait. -/
theorem sent_of_mem_settleAll (hkey : key ∈ keys)
    (hp : h.coalescer.inFlight.lookup key = some p) :
    ∀ w ∈ p.waiters, ⟨w, staleEntry, .prune⟩ ∈ (h.settleAll keys).sent := by
  induction keys generalizing h with
  | nil => exact nomatch hkey
  | cons first keys ih =>
    intro w hw
    by_cases hfirst : key = first
    · subst hfirst
      refine mem_sent_settleAll (h := h.settle key staleEntry .prune) ?_
      rw [settle_of_some hp]
      exact List.mem_append_right _ (List.mem_map.mpr ⟨w, hw, rfl⟩)
    · refine ih ((List.mem_cons.mp hkey).resolve_left hfirst) (h := h.settle first _ _) ?_ w hw
      cases hq : h.coalescer.inFlight.lookup first with
      | none => rwa [settle_of_none hq]
      | some q =>
        rw [settle_of_some hq]
        exact (AList.lookup_erase_ne hfirst).trans hp

end SettleAll

/-- What came of a completion came of the leader of the receiver's entry. -/
def Own (h : History Key) : Prop :=
  ∀ d ∈ h.sent, ∀ caller, d.source = .caller caller →
    ∃ key, h.joined[d.receiver]? = some (key, caller)

theorem own_settle_prune : (h.settle key result .prune).Own ↔ h.Own := by
  cases hp : h.coalescer.inFlight.lookup key with
  | none => rw [settle_of_none hp]
  | some p =>
    rw [settle_of_some hp]
    refine ⟨fun hown d hd => hown d (List.mem_append_left _ hd), fun hown d hd caller hc => ?_⟩
    rcases List.mem_append.mp hd with hd | hd
    · exact hown d hd caller hc
    · obtain ⟨w, hw, rfl⟩ := List.mem_map.mp hd
      cases hc

theorem own_settleAll {keys : List Key} : (h.settleAll keys).Own ↔ h.Own := by
  induction keys generalizing h with
  | nil => rfl
  | cons key keys ih => exact ih.trans own_settle_prune

/-- The leader of an entry is among those that wait at it: a completion of another caller
reaches them with a result that is not theirs. -/
theorem own_complete_iff (hs : h.Sound) {caller : ChannelId} :
    (h.settle key result (.caller caller)).Own ↔ h.Own ∧
      ∀ p, h.coalescer.inFlight.lookup key = some p → p.waiters.head? = some caller := by
  cases hp : h.coalescer.inFlight.lookup key with
  | none =>
    rw [settle_of_none hp]
    simp
  | some p =>
    rw [settle_of_some hp]
    obtain ⟨leader, hhead, hled⟩ := hs.led key p hp
    constructor
    · intro hown
      refine ⟨fun d hd => hown d (List.mem_append_left _ hd), fun q hq => ?_⟩
      obtain rfl := Option.some.inj hq
      have hmem := List.mem_of_head? hhead
      obtain ⟨key', hkey'⟩ := hown ⟨leader, result, .caller caller⟩
        (List.mem_append_right _ (List.mem_map.mpr ⟨leader, hmem, rfl⟩)) caller rfl
      have hsame := Option.some.inj ((hled leader hmem).symm.trans hkey')
      rw [hhead, (Prod.mk.inj hsame).2]
    · rintro ⟨hown, hleads⟩ d hd c hc
      rcases List.mem_append.mp hd with hd | hd
      · exact hown d hd c hc
      · obtain ⟨w, hw, rfl⟩ := List.mem_map.mp hd
        obtain rfl := Source.caller.inj hc
        obtain rfl := Option.some.inj (hhead.symm.trans (hleads p rfl))
        exact ⟨key, hled w hw⟩

theorem own_submitOrJoin_iff (hs : h.Sound) :
    (h.step hashKey ⟨now, .submitOrJoin content⟩).Own ↔ h.Own := by
  obtain ⟨-, hsent, entry, hjoined⟩ := hs.submitOrJoin hashKey content now
  unfold Own
  rw [hsent, hjoined]
  refine forall₂_congr fun d hd => ?_
  rw [List.getElem?_append_left (hs.known d hd)]

/-- A completion finds no entry of its key, or the caller's own. -/
def Timely (h : History Key) (c : Timed Content Key) : Prop :=
  ∀ caller key result, c.call = .complete caller key result →
    ∀ p, h.coalescer.inFlight.lookup key = some p → p.waiters.head? = some caller

theorem step_spec (hs : h.Sound) (c : Timed Content Key) : (h.step hashKey c).Sound ∧
    (∀ d ∈ h.sent, d ∈ (h.step hashKey c).sent) ∧
    ((h.step hashKey c).Own ↔ h.Own ∧ h.Timely c) := by
  obtain ⟨now, call⟩ := c
  cases call with
  | submitOrJoin content =>
    obtain ⟨hsound, hsent, -⟩ := hs.submitOrJoin hashKey content now
    refine ⟨hsound, fun d hd => hsent ▸ hd, ?_⟩
    rw [own_submitOrJoin_iff hs, and_iff_left]
    intro _ _ _ hc
    cases hc
  | complete caller key result =>
    refine ⟨hs.settle, fun d hd => mem_sent_settle hd, (own_complete_iff hs).trans ?_⟩
    refine and_congr_right' ⟨fun hleads c k r hc => ?_, fun htimely => htimely _ _ _ rfl⟩
    cases hc
    exact hleads
  | pruneStale maxAgeMs order =>
    rw [step_pruneStale]
    refine ⟨hs.settleAll, fun d hd => mem_sent_settleAll hd, ?_⟩
    rw [own_settleAll, and_iff_left]
    intro _ _ _ hc
    cases hc

end History

section Runs

variable {hashKey : Content → Key} {calls : List (Timed Content Key)} {c : Timed Content Key}

open History

theorem run_concat : run hashKey (calls ++ [c]) = (run hashKey calls).step hashKey c := by
  unfold run
  rw [List.foldl_append]
  rfl

theorem run_sound : (run hashKey calls).Sound := by
  induction calls using List.reverseRecOn with
  | nil => exact sound_empty
  | append_singleton calls c ih =>
    rw [run_concat]
    exact (step_spec ih c).1

theorem mem_sent_append {more : List (Timed Content Key)} {d : Delivery}
    (hd : d ∈ (run hashKey calls).sent) : d ∈ (run hashKey (calls ++ more)).sent := by
  induction more using List.reverseRecOn with
  | nil => rwa [List.append_nil]
  | append_singleton more c ih =>
    rw [← List.append_assoc, run_concat]
    exact (step_spec run_sound c).2.1 d ih

/-- The places in a list that has grown by one are those it had and the new one. -/
theorem forall_split_concat {α : Type} {l : List α} {a : α} {P : List α → α → Prop} :
    (∀ before x rest, l ++ [a] = before ++ x :: rest → P before x) ↔
      (∀ before x rest, l = before ++ x :: rest → P before x) ∧ P l a := by
  constructor
  · intro h
    refine ⟨fun before x rest hl => h before x (rest ++ [a]) ?_, h l a [] rfl⟩
    rw [hl, List.append_assoc, List.cons_append]
  · rintro ⟨hold, hnew⟩ before x rest hl
    rcases List.eq_nil_or_concat' rest with rfl | ⟨rest, b, rfl⟩
    · obtain ⟨rfl, hlast⟩ := List.append_inj' hl rfl
      rwa [← (List.cons.inj hlast).1]
    · rw [← List.cons_append, ← List.append_assoc] at hl
      exact hold before x rest (List.append_inj' hl rfl).1

theorem run_own_iff : (run hashKey calls).Own ↔ ∀ before c rest, calls = before ++ c :: rest →
    (run hashKey before).Timely c := by
  induction calls using List.reverseRecOn with
  | nil => simp [run, Own]
  | append_singleton calls c ih =>
    rw [run_concat, (step_spec run_sound c).2.2, ih, forall_split_concat]

theorem leads_unique {h : History Key} (hs : h.Sound) {key : Key} {a b : ChannelId}
    (ha : h.Leads a key) (hb : h.Leads b key) : a = b := by
  have hhead : ∀ c, h.Leads c key → ∃ p, h.coalescer.inFlight.lookup key = some p ∧
      p.waiters.head? = some c := by
    rintro c ⟨hjoined, k, p, hp, hc⟩
    obtain ⟨leader, hleader, hled⟩ := hs.led k p hp
    obtain ⟨rfl, rfl⟩ := Prod.mk.inj (Option.some.inj (hjoined.symm.trans (hled c hc)))
    exact ⟨p, hp, hleader⟩
  obtain ⟨p, hp, hap⟩ := hhead a ha
  obtain ⟨q, hq, hbq⟩ := hhead b hb
  obtain rfl := Option.some.inj (hp.symm.trans hq)
  exact Option.some.inj (hap.symm.trans hbq)

theorem pruned_sent {before rest : List (Timed Content Key)} {now maxAgeMs : Nat}
    {order : IterationOrder (Σ _ : Key, PendingRequest Key)} {key : Key} {p : PendingRequest Key}
    (hcalls : calls = before ++ ⟨now, .pruneStale maxAgeMs order⟩ :: rest)
    (hp : (run hashKey before).coalescer.inFlight.lookup key = some p)
    (hstale : RequestCoalescer.isStale maxAgeMs now p = true) :
    ∀ w ∈ p.waiters, ⟨w, staleEntry, .prune⟩ ∈ (run hashKey calls).sent := by
  intro w hw
  have hkey : key ∈ (run hashKey before).staleKeys order maxAgeMs now :=
    List.mem_map.mpr ⟨⟨key, p⟩, List.mem_filter.mpr
      ⟨order.mem_arrange.mpr (AList.mem_lookup_iff.mp hp), hstale⟩, rfl⟩
  have hsent := sent_of_mem_settleAll hkey hp w hw
  rw [← step_pruneStale hashKey, ← run_concat] at hsent
  rw [hcalls, ← List.singleton_append, ← List.append_assoc]
  exact mem_sent_append hsent

/-- Receivers get their own leader's results as long as no caller completes a key after its
entry was pruned and while one of a later leader is in flight. -/
theorem coalesces_iff (hashKey : Content → Key) (calls : List (Timed Content Key)) :
    Coalesces hashKey calls ↔ ∀ before c rest, calls = before ++ c :: rest →
      (run hashKey before).Timely c := by
  rw [← run_own_iff]
  exact ⟨fun h => h.own, fun hown =>
    { once := run_sound.once
      oneLeader := fun before _ key a b => leads_unique run_sound
      pruned := fun before now maxAgeMs order rest hcalls key p => pruned_sent hcalls
      own := hown }⟩

end Runs

/-- A leader completes after its entry was pruned and another caller took the lead. -/
def lateLeader : List (Timed String String) :=
  [⟨0, .submitOrJoin "GET /"⟩, ⟨60000000000, .pruneStale 30000 (.inserted _)⟩,
    ⟨60000000000, .submitOrJoin "GET /"⟩, ⟨61000000000, .complete 0 "GET /" (.ok "old")⟩]

theorem lateLeader_proper : Proper id lateLeader := by
  refine ⟨fun before now caller key result rest hcalls => ?_, by decide⟩
  have hplace := congrArg (·[before.length]?) hcalls
  simp only [List.getElem?_append_right (Nat.le_refl _), Nat.sub_self,
    List.getElem?_cons_zero] at hplace
  have hbefore := congrArg (List.take before.length) hcalls
  rw [List.take_left] at hbefore
  generalize before.length = k at hplace hbefore
  match k with
  | 0 => cases Option.some.inj hplace
  | 1 => cases Option.some.inj hplace
  | 2 => cases Option.some.inj hplace
  | 3 =>
    cases Option.some.inj hplace
    rw [← hbefore]
    rfl
  | k + 4 => cases hplace

theorem lateLeader_misdelivers : Proper id lateLeader ∧ ¬Coalesces id lateLeader := by
  refine ⟨lateLeader_proper, fun h => ?_⟩
  have hsent : (run id lateLeader).sent =
      [⟨0, staleEntry, .prune⟩, ⟨1, .ok "old", .caller 0⟩] := rfl
  obtain ⟨key, hkey⟩ := h.own ⟨1, .ok "old", .caller 0⟩ (by simp [hsent]) 0 rfl
  have hjoined : (run id lateLeader).joined[1]? = some ("GET /", 1) := rfl
  have hsame := congrArg Prod.snd (Option.some.inj (hjoined.symm.trans hkey))
  exact absurd hsame (show ¬1 = 0 by decide)

end HelixRouter.RequestCoalescing
