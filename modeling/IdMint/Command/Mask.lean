import IdMint.Command.Outcome

/-!
# Masking and unmasking

`obfuscate` and `deobfuscate` take the integers as positional arguments, at
least one of them. A negative integer is an argument like any other and needs
no `--` in front of it.
-/

namespace IdMint.Command

structure MaskConfig where
  /-- The key; zero stands for the default key. -/
  key : Int64 := 0
  deriving DecidableEq, Repr

def maskFlags : List (Flag MaskConfig) :=
  [valueFlag "--key" "Obfuscation key, decimal or 0x-prefixed hex (0 or omitted: default key)"
     Key.parse? fun key c => { c with key }]

def maskCall : Obfuscation.Direction → Bytes
  | .mask => callText "obfuscate [--key <key>] <id>..."
  | .unmask => callText "deobfuscate [--key <key>] <code>..."

def maskValues (direction : Obfuscation.Direction) (arguments : List Bytes) : Outcome :=
  let parsed := parseOptions maskFlags arguments {}
  if ¬ parsed.isFine ∨ parsed.positional = [] then
    misused parsed (maskCall direction) maskFlags
  else
    match Obfuscation.report (.ofKey parsed.config.key) direction parsed.positional with
    | .error e => .failure (errorLine e.message)
    | .ok report => .success (.obfuscation report) []

end IdMint.Command
