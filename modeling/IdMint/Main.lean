import IdMint.Command.Program
import IdMint.Random.Entropy
import Std.Internal.UV.System
import Std.Internal.UV.UDP
import Std.Net
import Std.Time

/-!
# The command line

The outermost layer asks the machine what it is, records readings of its clock and
random bytes of its kernel, and runs the program on the recordings. A run that
comes to the end of a recording has not decided anything yet, so the
recordings are lengthened and the same run is made again, and it finds the same
values in the same places as before. Nothing is printed until a run has ended.
-/

namespace IdMint.CommandLine

/-- The answer of an action, or `none` if it fails. -/
def attempt? {α : Type} (action : IO α) : IO (Option α) := do
  try
    return some (← action)
  catch _ => return none

/-- A text as bytes. -/
def bytesOf (text : String) : Bytes := text.toUTF8.toList

/-- The interfaces of this machine. -/
def interfaces : IO (List Interface) := do
  let found ← Std.Net.interfaceAddresses
  return found.toList.map fun i =>
    let hardware := i.physicalAddress.octets.toList
    { family := .link, isUp := true, isLoopback := i.isLoopback
      hardware := if hardware.all (· = 0) then [] else hardware }

/-- The local address of the route to the outside; choosing a route sends nothing. -/
def outboundAddress : IO (List UInt8) := do
  let socket ← Std.Internal.UV.UDP.Socket.new
  socket.connect (.v4 { addr := .ofParts 8 8 8 8, port := 80 })
  match ← socket.getSockName with
  | .v4 address => return address.addr.octets.toList
  | .v6 _ => throw (.userError "no route")

/-- What can be found out about this machine. -/
def machine : IO Machine := do
  let hostname ← attempt? Std.Internal.UV.System.osGetHostname
  let interfaces ← attempt? interfaces
  let outboundAddress ← attempt? outboundAddress
  let name ← attempt? Std.Internal.UV.System.osUname
  let processId ← attempt? Std.Internal.UV.System.osGetPid
  return {
    hostname := hostname.map bytesOf
    interfaces
    outboundAddress
    name := name.map fun n => { system := bytesOf n.sysname, hardware := bytesOf n.machine }
    processId := (processId.getD 0).toNat }

/-- This machine and the variables of this process. -/
def host : IO Command.Host := do
  let entries := (← attempt? Std.Internal.UV.System.osEnviron).getD #[]
  return {
    machine := ← machine
    environment := .ofEntries (entries.toList.map fun (name, value) =>
      bytesOf name ++ ascii "=" ++ bytesOf value) }

/-- A number of further readings of the system clock. -/
def readClock (count : Nat) : IO (List Instant) :=
  (List.range count).mapM fun _ => do
    return ⟨(← Std.Time.Timestamp.now).toNanosecondsSinceUnixEpoch.val⟩

/-- What the kernel delivers for a number of further draws. -/
def readKernel (draws : Nat) : IO (List Entropy.Reply) :=
  (List.range draws).mapM fun _ => do
    return match ← attempt? (IO.getRandomBytes 4) with
      | some bytes => .bytes bytes.toList
      | none => .failed

/-- Runs the program on the recordings, as often as it takes for them to be long
enough. -/
partial def runOn (arguments : List Bytes) (host : Command.Host) (readings : List Instant)
    (replies : List Entropy.Reply) : IO Command.Ending := do
  let clock : Supply (Tape Instant) :=
    { state := { upcoming := readings, afterwards := ⟨0⟩ }, allowance := readings.length }
  let random : Supply Kernel := { state := { replies }, allowance := replies.length }
  match Command.execute arguments host clock random with
  | some ending => return ending
  | none =>
    let moreReadings ← readClock (readings.length + 64)
    let moreReplies ← readKernel (replies.length + 64)
    runOn arguments host (readings ++ moreReadings) (replies ++ moreReplies)

/-- Writes bytes to a stream. -/
def write (stream : IO.FS.Stream) (bytes : Bytes) : IO Unit := do
  stream.write ⟨bytes.toArray⟩
  stream.flush

/-- The exit code of a process that was aborted, as a shell tells it. -/
def abortedCode : UInt32 := 134

end IdMint.CommandLine

/-- Runs the program on the arguments of the process. -/
def main (arguments : List String) : IO UInt32 := do
  let host ← IdMint.CommandLine.host
  let ending ← IdMint.CommandLine.runOn (arguments.map IdMint.CommandLine.bytesOf) host [] []
  IdMint.CommandLine.write (← IO.getStderr) ending.remarks
  IdMint.CommandLine.write (← IO.getStdout) ending.output
  return ending.exitCode?.elim IdMint.CommandLine.abortedCode Nat.toUInt32
