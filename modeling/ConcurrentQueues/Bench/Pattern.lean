import ConcurrentQueues.Bench.Spec
import ConcurrentQueues.Reasoning.Strings

/-!
# Pattern — the parser of batch size patterns

`malloc` and `realloc` succeed here.  A pointer into the pattern is the list of the bytes from it
on.
-/

namespace ConcurrentQueues.Bench

open Reasoning

/-- How the parser ends without specs. -/
inductive Halt where
  /-- `die_pattern` with this message -/
  | die (msg : String)
  /-- a read beyond the object -/
  | overrun
  /-- signed overflow -/
  | overflow
  | outOfFuel
  deriving DecidableEq, Repr

abbrev Parse (A : Type) := Except Halt A

def dies {A : Type} (msg : String) : Parse A := .error (.die msg)

def inBounds {A : Type} : Option A → Parse A
  | some a => .ok a
  | none => .error .overrun

/-- `*s`. -/
def deref (s : Text) : Parse UInt8 := inBounds s.head?

/-- `skip_ws`. -/
def skipWs : Text → Parse Text
  | [] => .error .overrun
  | c :: s => if c ≠ 0 ∧ isSpace c = true then skipWs s else .ok (c :: s)

/-- `parse_int_token`; it returns 0 as `none`. -/
def parseIntToken (inout : Text) : Parse (Option (Int32 × Text)) := do
  let s ← skipWs inout
  let c ← deref s
  if c = 0 then return none
  else
    let v ← inBounds (strtol s)
    if v.rest = s then return none
    else if v.erange then dies "integer out of range"
    else if v.value < 0 ∨ 2147483647 < v.value then dies "negative or too large integer"
    else return some (Int32.ofInt v.value, v.rest)

/-- `if (!parse_int_token(..)) die_pattern(pattern, msg);` -/
def intOrDie (msg : String) (inout : Text) : Parse (Int32 × Text) := do
  match ← parseIntToken inout with
  | some token => return token
  | none => dies msg

/-- `parse_spec` behind an opening parenthesis. -/
def parseTuple (s : Text) : Parse (BatchSpec × Text) := do
  let (minV, s) ← intOrDie "expected integer min in tuple '(min,max)' " s
  let s ← skipWs s
  let c ← deref s
  if c ≠ ','.toUInt8 then dies "expected ',' in tuple '(min,max)'"
  else
    let (maxV, s) ← intOrDie "expected integer max in tuple '(min,max)'" s.tail
    let s ← skipWs s
    let c ← deref s
    if c ≠ ')'.toUInt8 then dies "expected ')' to close tuple '(min,max)'"
    else if minV < 0 ∨ maxV < 0 then dies "negative sizes are invalid"
    else if maxV < minV then dies "tuple requires min <= max"
    else return (⟨.range, minV, maxV⟩, s.tail)

/-- `parse_spec`. -/
def parseSpec (inout : Text) : Parse (BatchSpec × Text) := do
  let s ← skipWs inout
  let c ← deref s
  if c = 0 then dies "unexpected end of input"
  else if c = '('.toUInt8 then parseTuple s.tail
  else
    let (v, s) ← intOrDie "expected integer or tuple '(min,max)'" s
    return (⟨.fixed, v, v⟩, s)

/-- `if (len == cap) cap *= 2`, in `int`. -/
def grow (len cap : Nat) : Parse Nat :=
  if len = cap then
    if cap * 2 < 2 ^ 31 then .ok (cap * 2) else .error .overflow
  else .ok cap

/-- The loop of `parse_spec_list`; `len` is the length of `elems`. -/
def parseElems (closeCh : UInt8) : Nat → List BatchSpec → Nat → Text → Parse (List BatchSpec × Text)
  | 0, _, _, _ => .error .outOfFuel
  | fuel + 1, elems, cap, s => do
      let cap ← grow elems.length cap
      let (e, s) ← parseSpec s
      let s ← skipWs s
      let c ← deref s
      if c = ','.toUInt8 then
        let s ← skipWs s.tail
        parseElems closeCh fuel (elems ++ [e]) cap s
      else if c = closeCh then return (elems ++ [e], s.tail)
      else dies "expected ',' or closing bracket"

/-- `parse_spec_list`, with a bound on the rounds of its loop. -/
def parseSpecList (fuel : Nat) (inner : Text) (openCh closeCh : UInt8) :
    Parse (List BatchSpec) := do
  let s ← skipWs inner
  let c ← deref s
  if c ≠ openCh then dies "internal error: list expected"
  else
    let s ← skipWs s.tail
    let c ← deref s
    if c = closeCh then dies "empty list is not allowed"
    else
      let (elems, s) ← parseElems closeCh fuel [] 8 s
      let s ← skipWs s
      let c ← deref s
      if c ≠ 0 then dies "trailing characters after pattern"
      else return elems

/-- `per_thread[t] = elems[index t]` for all threads. -/
def perThread (numThreads : Nat) (elems : List BatchSpec) (index : Nat → Nat) :
    Parse (List BatchSpec) :=
  (List.range numThreads).mapM fun t => inBounds elems[index t]?

/-- `parse_batch_size_pattern`; a `NULL` pattern is `none`, and `'\x7b'` and `'\x7d'` are the
braces. -/
def parseBatchSizePattern (fuel : Nat) (pattern : Option Text) (numThreads : Int32) :
    Parse (List BatchSpec) :=
  match pattern with
  | none => dies "null input"
  | some pattern =>
      if numThreads ≤ 0 then dies "num_threads must be > 0"
      else do
        let n := numThreads.toInt.toNat
        let s ← skipWs pattern
        let c ← deref s
        if c = 0 then dies "empty pattern"
        else if c ≠ '['.toUInt8 ∧ c ≠ '\x7b'.toUInt8 then
          let (one, p) ← parseSpec s
          let p ← skipWs p
          let c ← deref p
          if c ≠ 0 then dies "trailing characters after pattern"
          else return List.replicate n one
        else if c = '['.toUInt8 then
          let elems ← parseSpecList fuel s '['.toUInt8 ']'.toUInt8
          perThread n elems (· % elems.length)
        else if c = '\x7b'.toUInt8 then
          let elems ← parseSpecList fuel s '\x7b'.toUInt8 '\x7d'.toUInt8
          if elems.length ≠ n then
            dies "explicit per-thread list must have exactly num_threads elements"
          else perThread n elems id
        else dies "unknown pattern format"

end ConcurrentQueues.Bench
