import HelixRouter.Router.Types
import Mathlib.Data.List.Sort

namespace HelixRouter

def rotateLeft (x n : UInt64) : UInt64 := (x <<< n) ||| (x >>> (64 - n))

/-- One input of the multiply-xorshift cascade. -/
def hashmixInput (x v : UInt64) : UInt64 :=
  let x := (x ^^^ v) * 0x100000001b3
  let x := (x ^^^ (x >>> 33)) * 0xff51afd7ed558ccd
  let x := (x ^^^ (x >>> 33)) * 0xc4ceb9fe1a85ec53
  x ^^^ (x >>> 33)

def hashmixRound (t : UInt64) : UInt64 :=
  (rotateLeft t 7 ^^^ 0x9e3779b97f4a7c15) * 0xbf58476d1ce4e5b9

def hashmix (job : Job) : Output :=
  let x := job.inputs.foldl hashmixInput 0xcbf29ce484222325
  .u64 (hashmixRound^[max (job.computeCost.toNat / 64) 1] x)

/-- Strikes out the multiples of `p` from its square on. -/
def sieveStep (n : Nat) (isPrime : Array Bool) (p : Nat) : Array Bool :=
  if isPrime.getD p false then
    (List.range' (p * p) ((n - p * p) / p + 1) p).foldl (fun a k => a.set! k false) isPrime
  else isPrime

/-- The sieve runs `p` while its square is at most the bound. -/
def primecount (job : Job) : Output :=
  let n := min (max job.computeCost.toNat 10000) 250000
  let start := ((Array.replicate (n + 1) true).set! 0 false).set! 1 false
  let isPrime := (List.range' 2 (Nat.sqrt n - 1)).foldl (sieveStep n) start
  .u64 (UInt64.ofNat (isPrime.count true))

/-- The generator's next seed. -/
def xorshift (seed : UInt64) : UInt64 :=
  let s := seed ^^^ (seed >>> 12)
  let s := s ^^^ (s <<< 25)
  s ^^^ (s >>> 27)

/-- A 64-bit word as a fraction of the largest one, in double precision. -/
def unitFloat (v : UInt64) : Float := v.toFloat / (0xffffffffffffffff : UInt64).toFloat

def riskSample (inputs : List UInt64) (seed : UInt64) : Float :=
  let u := unitFloat (seed * 0x2545F4914F6CDD1D) * 2.0 - 1.0
  let base := u * 0.05
  let mean := inputs.foldl (fun m v => m + unitFloat v * 0.0001) 0.0
  let vol := inputs.foldl (fun w v => w + (unitFloat (rotateLeft v 13) - 0.5) * 0.01) 1.0
  mean + base * (if vol < 0.1 then 0.1 else vol)

/-- The fifth percentile of the samples; the seed is the job's id. -/
def montecarloRisk (job : Job) : Output :=
  let sims := min (max (job.computeCost.toNat / 200) 5000) 50000
  let seeds := (List.iterate xorshift (0x123456789abcdef0 ^^^ job.id) (sims + 1)).tail
  let samples := (seeds.map (riskSample job.inputs)).insertionSort (fun a b => ¬ b < a)
  let idx := (samples.length.toFloat * 0.05).floor.toUInt64.toNat
  .f64 (samples.getD (min idx (samples.length - 1)) 0)

/-- Every kernel answers with exactly one output. -/
def executeJob (job : Job) : List Output :=
  match job.kind with
  | .hashMix => [hashmix job]
  | .primeCount => [primecount job]
  | .monteCarloRisk => [montecarloRisk job]

theorem executeJob_length (job : Job) : (executeJob job).length = 1 := by
  unfold executeJob
  cases job.kind <;> rfl

theorem executeJob_ne_nil (job : Job) : executeJob job ≠ [] := by
  intro h
  have := executeJob_length job
  simp [h] at this

example : executeJob { inputs := [1], computeCost := 128 } ≠
    executeJob { inputs := [2], computeCost := 128 } := by decide +kernel

end HelixRouter
