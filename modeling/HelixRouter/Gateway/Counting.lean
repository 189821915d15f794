import HelixRouter.Gateway.ApiGateway
import HelixRouter.Runs.Stepwise
import Mathlib.Data.UInt

namespace HelixRouter.Gateway

open Runs Texts

/-- A bearer token is no longer than the name that is cut from it, or the eighth byte of it is
the last of a character. -/
def CutsClean : AuthMethod → Prop
  | .bearerToken token =>
    8 < token.utf8ByteSize → ∃ name rest, token.toList = name ++ rest ∧ byteLen name = 8
  | _ => True

theorem tokenName_isSome_iff (token : String) :
    (tokenName token).isSome ↔ CutsClean (.bearerToken token) := by
  rw [tokenName, Option.isSome_map, upToByte_isSome_iff, CutsClean]
  rcases Nat.lt_or_ge 8 token.utf8ByteSize with hlong | hshort
  · rw [Nat.min_eq_right hlong.le]
    exact ⟨fun h _ => h, fun h => h hlong⟩
  · rw [Nat.min_eq_left hshort]
    refine iff_of_true ⟨token.toList, [], ?_, ?_⟩ fun hlong => absurd hlong (Nat.not_lt.mpr hshort)
    · exact (List.append_nil _).symm
    · exact (utf8ByteSize_eq token).symm

namespace ApiGateway

variable {g g' : ApiGateway} {clocks : Clocks} {req : GatewayRequest} {result : AuthResult}
  {resp : GatewayResponse}

theorem authenticate_isSome_iff :
    (g.authenticate clocks req).isSome ↔ CutsClean req.auth := by
  unfold authenticate
  cases req.auth with
  | none => exact iff_of_true rfl trivial
  | basicAuth username password =>
    dsimp only
    split
    · exact iff_of_true rfl trivial
    · exact iff_of_true rfl trivial
  | apiKey key =>
    dsimp only
    split
    · exact iff_of_true rfl trivial
    · split
      · exact iff_of_true rfl trivial
      · exact iff_of_true rfl trivial
  | bearerToken token =>
    rw [← tokenName_isSome_iff]
    dsimp only
    split
    · rename_i hempty
      rw [String.isEmpty_iff.mp hempty]
      exact iff_of_true rfl rfl
    · rw [Option.isSome_map]

/-- To authenticate is not to count. -/
theorem authenticate_counters (h : g.authenticate clocks req = some (result, g')) :
    g'.totalRequests = g.totalRequests ∧ g'.authFailures = g.authFailures ∧
      g'.rateLimited = g.rateLimited ∧ g'.versionErrors = g.versionErrors := by
  unfold authenticate at h
  split at h
  · cases h
    exact ⟨rfl, rfl, rfl, rfl⟩
  · split at h
    · cases h
      exact ⟨rfl, rfl, rfl, rfl⟩
    · obtain ⟨name, -, heq⟩ := Option.map_eq_some_iff.mp h
      cases heq
      exact ⟨rfl, rfl, rfl, rfl⟩
  · split at h
    · cases h
      exact ⟨rfl, rfl, rfl, rfl⟩
    · cases h
      exact ⟨rfl, rfl, rfl, rfl⟩
  · split at h
    · cases h
      exact ⟨rfl, rfl, rfl, rfl⟩
    · split at h
      · rename_i hslow
        cases h
        exact ⟨congrArg (·.2.totalRequests) hslow.symm, congrArg (·.2.authFailures) hslow.symm,
          congrArg (·.2.rateLimited) hslow.symm, congrArg (·.2.versionErrors) hslow.symm⟩
      · rename_i hquick
        cases h
        exact ⟨congrArg (·.2.totalRequests) hquick.symm, congrArg (·.2.authFailures) hquick.symm,
          congrArg (·.2.rateLimited) hquick.symm, congrArg (·.2.versionErrors) hquick.symm⟩

theorem processRequest_isSome_iff :
    (g.processRequest clocks req).isSome ↔ CutsClean req.auth := by
  rw [← authenticate_isSome_iff (g := { g with totalRequests := g.totalRequests + 1 })]
  unfold processRequest
  dsimp only
  split
  · rename_i hnone
    rw [hnone]
    exact iff_of_false (by simp) (by simp)
  · rename_i hdenied
    rw [hdenied]
    exact iff_of_true rfl rfl
  · rename_i hlimited
    rw [hlimited]
    exact iff_of_true rfl rfl
  · rename_i hallowed
    rw [hallowed]
    split
    · exact iff_of_true rfl rfl
    · exact iff_of_true rfl rfl

/-- A call that is answered is counted, and so is its answer where it is not a 200. -/
theorem processRequest_counters (h : g.processRequest clocks req = some (resp, g')) :
    g'.totalRequests = g.totalRequests + 1 ∧
    ((resp.statusCode = 200 ∧ g'.authFailures = g.authFailures ∧ g'.rateLimited = g.rateLimited ∧
        g'.versionErrors = g.versionErrors) ∨
      (resp.statusCode = 401 ∧ g'.authFailures = g.authFailures + 1 ∧
        g'.rateLimited = g.rateLimited ∧ g'.versionErrors = g.versionErrors) ∨
      (resp.statusCode = 429 ∧ g'.authFailures = g.authFailures ∧
        g'.rateLimited = g.rateLimited + 1 ∧ g'.versionErrors = g.versionErrors) ∨
      (resp.statusCode = 400 ∧ g'.authFailures = g.authFailures ∧
        g'.rateLimited = g.rateLimited ∧ g'.versionErrors = g.versionErrors + 1)) := by
  unfold processRequest at h
  dsimp only at h
  split at h
  · cases h
  · rename_i hdenied
    obtain ⟨htotal, hauth, hlimited, hversion⟩ := authenticate_counters hdenied
    cases h
    exact ⟨htotal, Or.inr (Or.inl ⟨rfl, congrArg (· + 1) hauth, hlimited, hversion⟩)⟩
  · rename_i hslow
    obtain ⟨htotal, hauth, hlimited, hversion⟩ := authenticate_counters hslow
    cases h
    exact ⟨htotal, Or.inr (Or.inr (Or.inl ⟨rfl, hauth, congrArg (· + 1) hlimited, hversion⟩))⟩
  · rename_i hallowed
    obtain ⟨htotal, hauth, hlimited, hversion⟩ := authenticate_counters hallowed
    split at h
    · cases h
      exact ⟨htotal, Or.inr (Or.inr (Or.inr ⟨rfl, hauth, hlimited, congrArg (· + 1) hversion⟩))⟩
    · cases h
      exact ⟨htotal, Or.inl ⟨rfl, hauth, hlimited, hversion⟩⟩

end ApiGateway

structure Call where
  clocks : Clocks
  req : GatewayRequest

/-- A gateway, the calls of it, and those that were answered with a 200. -/
structure History where
  gateway : ApiGateway
  calls : Nat := 0
  oks : Nat := 0

namespace History

/-- Any keys, routes and windows, with nothing counted. -/
def start (g : ApiGateway) : History where
  gateway := { g with totalRequests := 0, authFailures := 0, rateLimited := 0, versionErrors := 0 }

/-- A call that panics has been counted, and nothing else has changed. -/
def next (h : History) (call : Call) : History :=
  match h.gateway.processRequest call.clocks call.req with
  | some (resp, gateway) =>
    { gateway := gateway
      calls := h.calls + 1
      oks := if resp.statusCode = 200 then h.oks + 1 else h.oks }
  | none =>
    { h with
      gateway := { h.gateway with totalRequests := h.gateway.totalRequests + 1 }
      calls := h.calls + 1 }

def step (h : History) (call : Call) : Option History := some (h.next call)

def Answered (h : History) (call : Call) : Prop :=
  (h.gateway.processRequest call.clocks call.req).isSome

/-- The counters agree, as numbers while there are not more calls than one of them can count. -/
def Counted (h : History) : Prop :=
  h.gateway.totalRequests = UInt64.ofNat h.oks + h.gateway.authFailures + h.gateway.rateLimited +
      h.gateway.versionErrors ∧
    (h.calls < 2 ^ 64 → h.gateway.totalRequests.toNat = h.oks + h.gateway.authFailures.toNat +
      h.gateway.rateLimited.toNat + h.gateway.versionErrors.toNat)

/-- Every call has one outcome, which is counted. -/
def Tallied (h : History) : Prop :=
  ∃ denied limited outdated, h.calls = h.oks + denied + limited + outdated ∧
    h.gateway.totalRequests = UInt64.ofNat h.calls ∧
    h.gateway.authFailures = UInt64.ofNat denied ∧ h.gateway.rateLimited = UInt64.ofNat limited ∧
    h.gateway.versionErrors = UInt64.ofNat outdated

variable {h : History} {call : Call}

theorem tallied_start (g : ApiGateway) : (start g).Tallied := ⟨0, 0, 0, rfl, rfl, rfl, rfl, rfl⟩

theorem Tallied.counted (ht : h.Tallied) : h.Counted := by
  obtain ⟨denied, limited, outdated, hcalls, htotal, hauth, hlimited, hversion⟩ := ht
  rw [Counted, htotal, hauth, hlimited, hversion]
  constructor
  · rw [hcalls, UInt64.ofNat_add, UInt64.ofNat_add, UInt64.ofNat_add]
  · intro hfew
    have hnat : ∀ n, n < 2 ^ 64 → (UInt64.ofNat n).toNat = n := fun n hn =>
      UInt64.toNat_ofNat_of_lt' hn
    rw [hnat _ hfew, hnat denied (by omega), hnat limited (by omega), hnat outdated (by omega)]
    exact hcalls

theorem next_of_some {resp : GatewayResponse} {gateway : ApiGateway}
    (hs : h.gateway.processRequest call.clocks call.req = some (resp, gateway)) :
    h.next call =
      { gateway := gateway
        calls := h.calls + 1
        oks := if resp.statusCode = 200 then h.oks + 1 else h.oks } := by
  rw [next, hs]

theorem ofNat_succ (n : Nat) : UInt64.ofNat n + 1 = UInt64.ofNat (n + 1) :=
  (UInt64.ofNat_add n 1).symm

theorem Tallied.next (ht : h.Tallied) (ha : h.Answered call) : (h.next call).Tallied := by
  obtain ⟨denied, limited, outdated, hcalls, htotal, hauth, hlimited, hversion⟩ := ht
  obtain ⟨⟨resp, gateway⟩, hsome⟩ := Option.isSome_iff_exists.mp ha
  rw [next_of_some hsome]
  obtain ⟨htotal', hcase⟩ := ApiGateway.processRequest_counters hsome
  rw [htotal, ofNat_succ] at htotal'
  rcases hcase with ⟨hs, ha', hl', hv'⟩ | ⟨hs, ha', hl', hv'⟩ | ⟨hs, ha', hl', hv'⟩ |
    ⟨hs, ha', hl', hv'⟩
  · refine ⟨denied, limited, outdated, ?_, htotal', ha'.trans hauth, hl'.trans hlimited,
      hv'.trans hversion⟩
    dsimp only
    rw [if_pos hs]
    omega
  · refine ⟨denied + 1, limited, outdated, ?_, htotal', ?_, hl'.trans hlimited,
      hv'.trans hversion⟩
    · dsimp only
      rw [if_neg (hs.trans_ne (by decide))]
      omega
    · rw [ha', hauth, ofNat_succ]
  · refine ⟨denied, limited + 1, outdated, ?_, htotal', ha'.trans hauth, ?_,
      hv'.trans hversion⟩
    · dsimp only
      rw [if_neg (hs.trans_ne (by decide))]
      omega
    · rw [hl', hlimited, ofNat_succ]
  · refine ⟨denied, limited, outdated + 1, ?_, htotal', ha'.trans hauth, hl'.trans hlimited, ?_⟩
    · dsimp only
      rw [if_neg (hs.trans_ne (by decide))]
      omega
    · rw [hv', hversion, ofNat_succ]

end History

open History

/-- All calls are answered and counted once just where the name of every bearer can be cut from
the token. -/
theorem answered_and_counted_iff (g : ApiGateway) (calls : List Call) :
    (EachStep step Answered (start g) calls ∧ Throughout step Counted (start g) calls) ↔
      ∀ call ∈ calls, CutsClean call.req.auth := by
  have hclean : EachStep step Answered (start g) calls ↔ ∀ call ∈ calls, CutsClean call.req.auth := by
    have hiff : (fun (h : History) (call : Call) => h.Answered call) =
        fun _ call => CutsClean call.req.auth := by
      funext h call
      exact propext ApiGateway.processRequest_isSome_iff
    rw [show Answered = fun _ call => CutsClean call.req.auth from hiff]
    exact eachStep_event_iff fun h call => ⟨h.next call, rfl⟩
  rw [hclean, and_iff_left_iff_imp]
  intro hall
  have htallied : Throughout step Tallied (start g) calls := by
    refine throughout_of_mem (tallied_start g) fun h call hcall h' ht hstep => ?_
    cases hstep
    exact ht.next (ApiGateway.processRequest_isSome_iff.mpr (hall call hcall))
  exact htallied.imp fun h ht => ht.counted

def bearer (token : String) : Call where
  clocks := ⟨0, 0⟩
  req := { method := "GET", path := "/", version := "v1", auth := .bearerToken token }

/-- Its eighth byte is the first of two. -/
def accented : Call := bearer "1234567é"

theorem accented_not_answered : ¬ (EachStep step Answered (start {}) [accented] ∧
    Throughout step Counted (start {}) [accented]) := by
  rintro ⟨hanswered, -⟩
  have hsome := (hanswered _ rfl).1
  have hclean := ApiGateway.processRequest_isSome_iff.mp hsome
  rw [show accented.req.auth = .bearerToken "1234567é" from rfl, ← tokenName_isSome_iff] at hclean
  exact absurd hclean (by decide)

end HelixRouter.Gateway
