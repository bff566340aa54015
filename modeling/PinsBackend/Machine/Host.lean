import PinsBackend.Arithmetic
import PinsBackend.Builtin

/-! What a running program shares with the world: an output stream and a random generator. -/
namespace PinsBackend

/-- What an output stream does with a text. -/
inductive Reply where
  | taken
  /-- The stream takes so many bytes and fails. -/
  | refused (bytes : Nat) (reason : String)

/-- How a stream replies to a text, after the texts that it was given before, the latest first. -/
abbrev Writer := List String → String → Reply

/-- A stream that takes so many bytes in all. -/
def Writer.limited (capacity : Nat) : Writer := fun before text =>
  let room := before.foldl (fun room text => room - text.utf8ByteSize) capacity
  if text.utf8ByteSize ≤ room then .taken else .refused room "sink full"

/-- An output stream in use. -/
structure Sink where
  /-- What has come out so far. -/
  bytes : ByteArray := .empty
  /-- The texts that were given to the stream, the latest first. -/
  texts : List String := []
  writer : Writer := fun _ _ => .taken

/-- Writes a text. Of a text that is refused, the bytes that the stream still takes come out. -/
def Sink.write (text : String) : EStateM Fault Sink Unit := fun ⟨bytes, texts, writer⟩ =>
  match writer texts text with
  | .taken => .ok () ⟨bytes ++ text.toUTF8, text :: texts, writer⟩
  | .refused taken reason =>
    .error (.output reason) ⟨bytes ++ text.toUTF8.extract 0 taken, text :: texts, writer⟩

namespace Random

/-- The state of a new generator. -/
def start : UInt64 := 0x9E3779B97F4A7C15

/-- The next state: three shifts, each combined with the state by exclusive or. -/
def next (x : UInt64) : UInt64 :=
  let x := x ^^^ (x >>> 12)
  let x := x ^^^ (x <<< 25)
  x ^^^ (x >>> 27)

/-- The number that a state gives. -/
def output (x : UInt64) : UInt64 := x * 0x2545F4914F6CDD1D

/-- The state for a seed. Zero would stay zero, so it is replaced. -/
def ofSeed (s : Int64) : UInt64 :=
  let x := s.toUInt64 ^^^ start
  if x = 0 then start else x

/-- The number of the interval from `lo` to `hi` that `x` selects. The interval of all words has
2^64 numbers and takes `x` as it is. -/
def between (lo hi : Int64) (x : UInt64) : Int64 :=
  let span := (hi - lo).toUInt64
  let offset := if span = 0xFFFFFFFFFFFFFFFF then x else x % (span + 1)
  lo + offset.toInt64

end Random

structure Host where
  sink : Sink := {}
  random : UInt64 := Random.start

namespace Host

def write (text : String) : EStateM Fault Host Unit := fun ⟨sink, random⟩ =>
  match Sink.write text sink with
  | .ok () sink => .ok () ⟨sink, random⟩
  | .error f sink => .error f ⟨sink, random⟩

/-- A number of the interval between two bounds, in either order. -/
def draw (a b : Int64) : EStateM Fault Host Int64 := fun h =>
  let state := Random.next h.random
  let x := Random.output state
  .ok (if a ≤ b then Random.between a b x else Random.between b a x) { h with random := state }

def reading {α : Type} (x : Except Fault α) : EStateM Fault Host α := fun h =>
  match x with
  | .ok a => .ok a h
  | .error f => .error f h

/-- Runs a built-in on its arguments, without the static link. Printing gives its argument
back. -/
def call (b : Builtin) (args : List Value) : EStateM Fault Host Value :=
  match b, args with
  | .printInt, [v] => do
    let n ← reading v.asInt
    write (toString n.toInt ++ "\n")
    return .int n
  | .printLog, [v] => do
    let t ← reading v.isTruthy
    write ((if t then "true" else "false") ++ "\n")
    return .logical t
  | .printStr, [.str s] => do
    write (s ++ "\n")
    return .str s
  | .printStr, [.int _] => throw (.malformed (.stringExpected .integer))
  | .randInt, [a, b] => do
    let a ← reading a.asInt
    let b ← reading b.asInt
    return .int (← draw a b)
  | .seed, [v] => do
    let s ← reading v.asInt
    modify fun h => { h with random := Random.ofSeed s }
    return .int s
  | b, args => throw (.malformed (.builtinArity b.name b.params.length args.length))

end Host
end PinsBackend
