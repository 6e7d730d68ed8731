import IdMint.Command.Program
import IdMint.Proofs.Arguments
import IdMint.Proofs.Decimal
import IdMint.Proofs.Keys
import IdMint.Proofs.LastValue
import IdMint.Proofs.MovedBits

/-!
# Masking and back

A mask changes a word by an exclusive or and a one-to-one table, and each undoes
itself or is undone by its inverse. That is the whole of the argument for one
value; the rest is about a value on its way through the command line.

A text that is an integer is never taken for an option, whatever its sign, so the
values of a command are exactly the arguments after the key. The key that a
document shows is the one that was used, which is never zero, so a run under the
shown key uses it again. And what is written of an integer or a key is read as
the same, so the document of one run holds all that is needed to undo it.
-/

namespace IdMint

/-! ## One value -/

namespace Obfuscator

theorem deobfuscate_obfuscate (o : Obfuscator) (id : Int64) :
    o.deobfuscate (o.obfuscate id) = id := by
  have hback := BitTable.permute_inverse_permute BitTable.fixed_place_injective
    (id.toUInt64 ^^^ o.key.toUInt64)
  rw [deobfuscate, obfuscate, UInt64.toUInt64_toInt64, BitTable.fixedInverse, hback,
    UInt64.xor_assoc, UInt64.xor_self, UInt64.xor_zero, Int64.toInt64_toUInt64]

theorem obfuscate_deobfuscate (o : Obfuscator) (code : Int64) :
    o.obfuscate (o.deobfuscate code) = code := by
  have hback := BitTable.permute_permute_inverse BitTable.fixed_place_injective code.toUInt64
  rw [obfuscate, deobfuscate, UInt64.toUInt64_toInt64, UInt64.xor_assoc, UInt64.xor_self,
    UInt64.xor_zero, BitTable.fixedInverse, hback, Int64.toInt64_toUInt64]

/-- The key in use stands for itself: it is not zero. -/
theorem ofKey_key (o : Obfuscator) : ofKey o.key = o := by
  rw [ofKey, dif_neg o.key_ne_zero]

end Obfuscator

namespace Obfuscation

def Direction.opposite : Direction → Direction
  | .mask => .unmask
  | .unmask => .mask

theorem Direction.apply_opposite (o : Obfuscator) (direction : Direction) (x : Int64) :
    direction.opposite.apply o (direction.apply o x) = x := by
  cases direction with
  | mask => exact o.deobfuscate_obfuscate x
  | unmask => exact o.obfuscate_deobfuscate x

/-- Texts that are integers are all reported on, in their order. -/
theorem report_of_integers (o : Obfuscator) (direction : Direction) {texts : List Bytes}
    {inputs : List Int64} (h : texts.map Decimal.parseInt64? = inputs.map some) :
    report o direction texts
      = .ok { key := o.key, entries := inputs.map fun x => ⟨x, direction.apply o x⟩ } := by
  have hentries : texts.mapM (Entry.ofText o direction)
      = .ok (inputs.map fun x => ⟨x, direction.apply o x⟩) := by
    induction texts generalizing inputs with
    | nil =>
        cases inputs with
        | nil => rfl
        | cons x inputs => cases h
    | cons text texts ih =>
        cases inputs with
        | nil => cases h
        | cons x inputs =>
            simp only [List.map_cons, List.cons.injEq] at h
            have hfirst : Entry.ofText o direction text = .ok ⟨x, direction.apply o x⟩ := by
              rw [Entry.ofText, h.1]
            rw [List.mapM_cons, hfirst, ih h.2]
            rfl
  rw [report, hentries]
  rfl

end Obfuscation

namespace Command

open Obfuscation

/-! ## Integers among the arguments -/

/-- Integers are positional arguments, the negative ones included, as long as no flag is
named like one. -/
theorem parseOptions_of_integers {γ : Type} {flags : List (Flag γ)}
    (hnames : ∀ flag ∈ flags, Decimal.parseInt64? flag.name = none) (config : γ) :
    ∀ {texts : List Bytes}, (∀ text ∈ texts, Decimal.parseInt64? text ≠ none) →
      parseOptions flags texts config = { config, positional := texts } := by
  intro texts htexts
  have hcut : WellCut flags (texts.map .positional) := by
    induction texts with
    | nil => exact .nil
    | cons text texts ih =>
        have htext := htexts text (List.mem_cons_self ..)
        refine .positional ?_ (.inr htext) (ih fun text h => htexts text (List.mem_cons_of_mem _ h))
        rintro flag hflag rfl
        exact htext (hnames flag hflag)
  have hpieces := cut_flatMap hcut
  rw [flatMap_positional] at hpieces
  rw [parseOptions_eq_summary, hpieces, summary_positional]

theorem parseOptions_of_accepted {γ : Type} {flags : List (Flag γ)} {name value : Bytes}
    {flag : Flag γ} {config config' : γ} (hend : name ≠ ascii "--")
    (hflag : findFlag? flags name = some flag) (htakes : flag.takesValue = true)
    (haccepted : flag.handle value config = .accepted config') (rest : List Bytes) :
    parseOptions flags (name :: value :: rest) config = parseOptions flags rest config' := by
  rw [parseOptions]
  simp only [if_neg hend, hflag, if_pos htakes, haccepted]
  rfl

theorem parseOptions_maskFlags {keyText : Bytes} {key : Int64} {texts : List Bytes}
    (hkey : Key.parse? keyText = some key)
    (htexts : ∀ text ∈ texts, Decimal.parseInt64? text ≠ none) :
    parseOptions maskFlags (ascii "--key" :: keyText :: texts) {}
      = { config := { key }, positional := texts } := by
  have hnames : ∀ flag ∈ maskFlags, Decimal.parseInt64? flag.name = none := by
    intro flag hflag
    rw [maskFlags, List.mem_singleton] at hflag
    rw [hflag]
    decide
  have hend : ascii "--key" ≠ ascii "--" := by decide
  have hflag : findFlag? maskFlags (ascii "--key")
      = some (valueFlag "--key" _ Key.parse? fun key c => { c with key }) := rfl
  rw [parseOptions_of_accepted hend hflag rfl (valueFlag_handle_some hkey {})]
  exact parseOptions_of_integers hnames { key } htexts

/-! ## One run -/

theorem maskValues_of_integers (direction : Direction) {keyText : Bytes} {key : Int64}
    {texts : List Bytes} {inputs : List Int64} (hkey : Key.parse? keyText = some key)
    (hsome : texts ≠ []) (hinputs : texts.map Decimal.parseInt64? = inputs.map some) :
    maskValues direction (ascii "--key" :: keyText :: texts)
      = .success (.obfuscation
          { key := (Obfuscator.ofKey key).key
            entries := inputs.map fun x => ⟨x, direction.apply (.ofKey key) x⟩ }) [] := by
  have htexts : ∀ text ∈ texts, Decimal.parseInt64? text ≠ none := by
    intro text htext hnone
    have hmem := List.mem_map_of_mem (f := Decimal.parseInt64?) htext
    rw [hnone, hinputs] at hmem
    simp at hmem
  have hreport := report_of_integers (.ofKey key) direction hinputs
  rw [maskValues, parseOptions_maskFlags hkey htexts]
  simp only [hsome, not_true_eq_false, or_self, if_false, hreport]

def commandName : Direction → Bytes
  | .mask => ascii "obfuscate"
  | .unmask => ascii "deobfuscate"

theorem lookup_commandName (direction : Direction) :
    requests.lookup (commandName direction) = some (.masking direction) := by
  cases direction with
  | mask => rfl
  | unmask => rfl

/-- The arguments that ask for texts to be taken in a direction under a key. -/
def maskArguments (direction : Direction) (keyText : Bytes) (texts : List Bytes) : List Bytes :=
  commandName direction :: ascii "--key" :: keyText :: texts

/-- The run succeeded, and its document shows the key and the entries. -/
def Outcome.Shows (o : Outcome) (keyText : Bytes) (entries : List Entry) : Prop :=
  o.exitCode = 0 ∧ o.document.map Document.toJson = some (.members
    [member "key" (.text keyText), member "results" (.list (entries.map entryJson))])

variable {κ ρ : Type} [Source κ Instant] [Source ρ Draw]

/-- Integers under a key are taken in the direction that was asked for, whatever the
machine, the clock and the random source. -/
theorem run_maskArguments (direction : Direction) {keyText : Bytes} {key : Int64}
    {texts : List Bytes} {inputs : List Int64} (hkey : Key.parse? keyText = some key)
    (hsome : texts ≠ []) (hinputs : texts.map Decimal.parseInt64? = inputs.map some)
    (host : Host) (clock : Supply κ) (random : Supply ρ) :
    ∃ outcome, run (maskArguments direction keyText texts) host clock random = some outcome ∧
      outcome.Shows (Key.format (Obfuscator.ofKey key).key)
        (inputs.map fun x => ⟨x, direction.apply (.ofKey key) x⟩) := by
  have hrun : run (maskArguments direction keyText texts) host clock random
      = some (maskValues direction (ascii "--key" :: keyText :: texts)) := by
    rw [maskArguments, run]
    simp only [lookup_commandName]
    rfl
  rw [maskValues_of_integers direction hkey hsome hinputs] at hrun
  exact ⟨_, hrun, rfl, rfl⟩

/-! ## There and back -/

theorem parseInt64?_texts (values : List Int64) :
    (values.map fun v => Decimal.ofInt v.toInt).map Decimal.parseInt64? = values.map some := by
  rw [List.map_map]
  exact List.map_congr_left fun v _ => Decimal.parseInt64?_ofInt v

end Command

end IdMint
