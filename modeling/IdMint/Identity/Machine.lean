import IdMint.Text.Decimal
import IdMint.Text.Hex

/-!
# What a machine tells about itself

Five facts make up the fingerprint of a running program: host name, hardware
address, the local address of the route to the outside, platform, process
id. Every one but the last may be unavailable, and is then the empty text, so
a fingerprint is never refused and, because of the process id, never empty.

The hardware address is that of the first interface that could carry
traffic; the interfaces before it and after it do not matter.
-/

namespace IdMint

/-- What kind of address an interface is listed with. -/
inductive AddressFamily where
  | link
  | other
  | absent
  deriving DecidableEq, Repr

structure Interface where
  /-- The kind of address it is listed with. -/
  family : AddressFamily
  isUp : Bool
  isLoopback : Bool
  /-- Its hardware address, possibly of no bytes. -/
  hardware : Bytes
  deriving DecidableEq, Repr

/-- An interface that can stand for its machine. -/
def Interface.Eligible (i : Interface) : Prop :=
  i.family = .link ∧ i.isUp ∧ ¬ i.isLoopback ∧ i.hardware ≠ []

instance (i : Interface) : Decidable i.Eligible :=
  inferInstanceAs (Decidable (_ ∧ _ ∧ _ ∧ _))

/-- A hardware address as two digits for each byte, with colons between. -/
def hardwareText (hardware : Bytes) : Bytes :=
  (ascii ":").intercalate (hardware.map Hex.ofByte)

/-- The hardware address of the first eligible interface, or the empty text. -/
def hardwareAddress (interfaces : List Interface) : Bytes :=
  match interfaces.find? fun i => i.Eligible with
  | some i => hardwareText i.hardware
  | none => []

structure SystemName where
  system : Bytes
  hardware : Bytes
  deriving DecidableEq, Repr

/-- What can be found out about a machine; `none` where a question has no answer. -/
structure Machine where
  hostname : Option Bytes
  interfaces : Option (List Interface)
  /-- The four bytes of the local address that a packet to the outside would bear. -/
  outboundAddress : Option (List UInt8)
  name : Option SystemName
  processId : Int
  deriving DecidableEq, Repr

/-- The facts that tell a running program from others, as texts. -/
structure Fingerprint where
  hostname : Bytes := []
  macAddress : Bytes := []
  localIp : Bytes := []
  platform : Bytes := []
  processId : Bytes := []
  deriving DecidableEq, Repr

/-- All the facts in one text, without anything between them. -/
def Fingerprint.text (f : Fingerprint) : Bytes :=
  f.hostname ++ f.macAddress ++ f.localIp ++ f.platform ++ f.processId

/-- How many bytes of a host name are kept. -/
def hostnameLimit : Nat := 255

/-- How many bytes the name of a system or of hardware has at most. -/
def systemNameLimit : Nat := 64

/-- An address of four bytes as numbers with dots between. -/
def dottedText (address : List UInt8) : Bytes :=
  (ascii ".").intercalate (address.map fun b => Decimal.ofNat b.toNat)

/-- The system in lower case and the hardware as it is. -/
def SystemName.platform (n : SystemName) : Bytes :=
  Ascii.lower (n.system.take systemNameLimit) ++ n.hardware.take systemNameLimit

def Machine.fingerprint (m : Machine) : Fingerprint where
  hostname := (m.hostname.getD []).take hostnameLimit
  macAddress := hardwareAddress (m.interfaces.getD [])
  localIp := dottedText (m.outboundAddress.getD [])
  platform := (m.name.map SystemName.platform).getD []
  processId := Decimal.ofInt m.processId

end IdMint
