import UdpSm.Mjson

/-! `InputArguments.cpp`: the start parameters, read from a JSON file. -/
namespace UdpSm
open Lib Mjson

inductive InputArguments.Field where
  | processorCoreId
  | networkInterfaceName
  | iPv4MulticastUdpPort
  | iPv4MulticastAddress
  | configDumpReceivedPacketsInAsciiFormat
  | configDumpReceivedPacketsInHexadecimalFormat
  | verbose
  | sharedMemoryName
  | loggingFileName
  | loggingLevel
deriving DecidableEq, Repr

abbrev InputArguments := Objects InputArguments.Field

namespace InputArguments

def shmNameLength : Nat := 256
def ifnamsiz : Nat := 16
def inetAddrstrlen : Nat := 16
def lognamsiz : Nat := 256

def sizeOfField : Field → Nat
  | .networkInterfaceName => ifnamsiz
  | .iPv4MulticastAddress => inetAddrstrlen
  | .sharedMemoryName => shmNameLength
  | .loggingFileName => lognamsiz
  | .configDumpReceivedPacketsInAsciiFormat => 1
  | .configDumpReceivedPacketsInHexadecimalFormat => 1
  | .verbose => 1
  | _ => 4

def entry (name : String) (type : JsonType) (addr : Field) (len : Nat) : JsonAttr Field where
  attributeName := ascii name
  type := type
  addr := addr
  dflt := 0
  check := []
  len := len
  map := none
  nodefault := false

def jsonAttributes : List (JsonAttr Field) := [
  entry "core_id" .integer .processorCoreId 0,
  entry "shm_name" .string .sharedMemoryName shmNameLength,
  entry "iface" .string .networkInterfaceName ifnamsiz,
  entry "verbose" .boolean .verbose 0,
  entry "port" .integer .iPv4MulticastUdpPort 0,
  entry "ip_multicast" .string .iPv4MulticastAddress inetAddrstrlen,
  entry "dump_pkt" .boolean .configDumpReceivedPacketsInAsciiFormat 0,
  entry "dump_hex" .boolean .configDumpReceivedPacketsInHexadecimalFormat 0,
  entry "log_name" .string .loggingFileName lognamsiz,
  entry "log_level" .integer .loggingLevel 0]

def bufferSize : Nat := 4096

/-- A file that opens is its bytes and the number of them that `fread` delivers. -/
def readJsonStringFromFile (file : Option (List UInt8 × Nat)) : List UInt8 :=
  match file with
  | none => List.replicate bufferSize 0
  | some (bytes, delivered) =>
    if bytes.length < bufferSize ∧ delivered = bytes.length then
      bytes ++ List.replicate (bufferSize - bytes.length) 0
    else List.replicate bufferSize 0

def resetField (o : InputArguments) (f : Field) : Except Halt InputArguments :=
  match f with
  | .processorCoreId => memcpy o f (intBytes 4 0)
  | .iPv4MulticastUdpPort => memcpy o f (intBytes 4 0)
  | .loggingLevel => memcpy o f (intBytes 4 0)
  | _ => memcpy o f [0]

def reset (o : InputArguments) : Except Halt InputArguments :=
  [Field.processorCoreId, .sharedMemoryName, .networkInterfaceName, .verbose, .iPv4MulticastUdpPort,
    .iPv4MulticastAddress, .configDumpReceivedPacketsInAsciiFormat,
    .configDumpReceivedPacketsInHexadecimalFormat, .loggingFileName, .loggingLevel].foldlM resetField o

def excludeAscii (o : InputArguments) : Except Halt InputArguments :=
  if o .configDumpReceivedPacketsInHexadecimalFormat = [0] then return o
  else memcpy o .configDumpReceivedPacketsInAsciiFormat [0]

/-- `ReadParameters` as far as it stores. `file` is what `argv[1]` names; without it the members are
only reset. -/
def parseParameters (argc : Nat) (file : Option (List UInt8 × Nat)) (o : InputArguments) :
    Except Halt (Int × InputArguments) := do
  let o ← reset o
  if argc < 2 then return (-1, o)
  else
    let result ← jsonReadObject (readJsonStringFromFile file) jsonAttributes o
    return (result.status, ← excludeAscii result.objects)

/-- `%s` reads up to the NUL. -/
def printString (o : InputArguments) (f : Field) : Except Halt Unit :=
  if 0 ∈ o f then return () else .error .outOfBounds

def printParameters (o : InputArguments) : Except Halt Unit := do
  printString o .sharedMemoryName
  printString o .networkInterfaceName
  printString o .iPv4MulticastAddress
  if (o .loggingFileName).head? = some 0 then return () else printString o .loggingFileName

def readParameters (argc : Nat) (file : Option (List UInt8 × Nat)) (o : InputArguments) :
    Except Halt (Int × InputArguments) := do
  let (status, o) ← parseParameters argc file o
  if argc < 2 then return (status, o)
  else
    -- `LOGV`, and without an error once more
    printParameters o
    if status = 0 then printParameters o
    return (status, o)

end InputArguments

end UdpSm
