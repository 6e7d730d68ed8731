import IdMint.Proofs.Settling

/-!
# Every machine has an address of its own

Nothing but the process id can be relied on when a machine tells about itself, and the
process id alone keeps the fingerprint from being empty. The clock only stands in for an
empty fingerprint, so a machine has its ids whatever the time. And five bits of a digest
are an id that no generator refuses.

A caller has no part in what the two ways of making a generator find. So the range is
looked at once more when the generator is made, and nothing is ever out of it.
-/

namespace IdMint

theorem Machine.fingerprint_text_ne_nil (m : Machine) : m.fingerprint.text ≠ [] :=
  List.append_ne_nil_of_right_ne_nil _ (Decimal.ofInt_ne_nil m.processId)

/-- The address that the fingerprint of a machine gives. -/
def Machine.ownAddress (m : Machine) : Address where
  worker := Role.worker.derivedId m.fingerprint.text
  datacenter := Role.datacenter.derivedId m.fingerprint.text

/-- The identity that the fingerprint of a machine gives. -/
def Machine.ownIdentity (m : Machine) : Identity where
  worker := { id := m.ownAddress.worker.val, origin := .machine }
  datacenter := { id := m.ownAddress.datacenter.val, origin := .machine }

theorem Machine.isSettled_ownIdentity (m : Machine) {env : Environment}
    (h : ∀ role : Role, role.IsUnset env) :
    m.ownIdentity.IsSettled env m.fingerprint.text {} :=
  forall_role.mpr ⟨.machine (h .worker), .machine (h .datacenter)⟩

/-- An identity that no caller had a part in makes a generator, at its own ids. -/
theorem Identity.IsSettled.exists_address {i : Identity} {env : Environment} {fingerprint : Bytes}
    (h : i.IsSettled env fingerprint {}) :
    ∃ address : Address, i.generator = .ok { address } ∧
      ∀ role, ((address.get role).val : Int) = (i.get role).id := by
  have hrange : ∀ role, IsAddressId (i.get role).id := by
    refine fun role => (h role).isAddressId_iff.mpr ?_
    cases role <;> rintro _ ⟨⟩
  obtain ⟨address, hcreate, hvals⟩ :=
    Snowflake.create_of_isAddressId (hrange .worker) (hrange .datacenter)
  refine ⟨address, ?_, forall_role.mpr hvals⟩
  simp only [get] at hcreate
  rw [generator, hcreate]
  rfl

theorem Machine.generator_ownIdentity (m : Machine) :
    m.ownIdentity.generator = .ok { address := m.ownAddress } := by
  -- Any environment without the variables shows that the ids are in range.
  have hsettled : m.ownIdentity.IsSettled (fun _ => none) m.fingerprint.text {} :=
    m.isSettled_ownIdentity fun _ => .inl rfl
  obtain ⟨address, hgenerator, hvals⟩ := hsettled.exists_address
  have hsame : address = m.ownAddress := by
    obtain ⟨worker, datacenter⟩ := address
    obtain rfl : worker = m.ownAddress.worker := Fin.ext (Int.ofNat.inj (hvals .worker))
    obtain rfl : datacenter = m.ownAddress.datacenter := Fin.ext (Int.ofNat.inj (hvals .datacenter))
    rfl
  rw [hgenerator, hsame]

section

variable {κ : Type} [Source κ Instant] {env : Environment} {m : Machine}

theorem machineIdentity_eq (m : Machine) (clock : Supply κ) :
    machineIdentity m.fingerprint clock = some (m.ownIdentity, clock) := by
  rw [machineIdentity, deriveId_of_ne_nil m.fingerprint_text_ne_nil]
  show (deriveId _ _ clock).bind _ = _
  rw [deriveId_of_ne_nil m.fingerprint_text_ne_nil]
  rfl

theorem generatorFromMachine_eq (m : Machine) (clock : Supply κ) :
    generatorFromMachine m clock = some (.ok { address := m.ownAddress }, clock) := by
  rw [generatorFromMachine, machineIdentity_eq, ← m.generator_ownIdentity]
  rfl

theorem Identity.IsSettled.generatorFromEnvironment_eq {i : Identity}
    (h : i.IsSettled env m.fingerprint.text {}) (clock : Supply κ) :
    generatorFromEnvironment env m clock = some (i.generator, clock) := by
  rw [generatorFromEnvironment, h.resolve_eq m.fingerprint_text_ne_nil clock]
  rfl

theorem Refuses.generatorFromEnvironment_eq {role : Role} {e : VariableError}
    (h : Refuses env {} role e) (clock : Supply κ) :
    generatorFromEnvironment env m clock = some (.error (.badVariable role e), clock) := by
  rw [generatorFromEnvironment, h.resolve_eq m.fingerprint_text_ne_nil clock]
  rfl

end

/-! ## Main statement -/

/-- A machine has an address of its own, whatever it fails to tell. Its fingerprint is never
empty, so the address takes no reading of the clock, and neither does anything else here. A
generator at that address is always made. With the variables, one is made exactly if each of
them is unset, or says an id that can be a part of an address; its ids are then the ones that
the variables say or the fingerprint gives. Otherwise the error is that of a variable, never
that of an id which the generator refused. If no variable is set, it is the machine's own
address again. -/
theorem generators_for_every_machine (machine : Machine) :
    machine.fingerprint.text ≠ [] ∧
    ∃ own : Address,
      (∀ role, own.get role = role.derivedId machine.fingerprint.text) ∧
      (∀ (κ : Type) [Source κ Instant] (clock : Supply κ),
        generatorFromMachine machine clock = some (.ok { address := own }, clock)) ∧
      ∀ env : Environment, ∃ result,
        (∀ (κ : Type) [Source κ Instant] (clock : Supply κ),
          generatorFromEnvironment env machine clock = some (result, clock)) ∧
        ((∃ g, result = .ok g) ↔ ∀ role : Role, role.IsUnset env ∨ ∃ id, role.IsGiven env id) ∧
        (∀ g, result = .ok g → ∃ address : Address, g = { address } ∧
          ∀ role, IsAddressId (address.get role).val ∧
            ∃ origin, role.Settles env machine.fingerprint.text none
              { id := (address.get role).val, origin }) ∧
        (∀ e, result = .error e → ∃ role wrong, e = .badVariable role wrong ∧
          role.readVariable env = .error wrong ∧ wrong ≠ .notSet) ∧
        ((∀ role : Role, role.IsUnset env) → result = .ok { address := own }) := by
  have hnone : ∀ role, ({} : Overrides).get role = none := forall_role.mpr ⟨rfl, rfl⟩
  refine ⟨machine.fingerprint_text_ne_nil, machine.ownAddress, forall_role.mpr ⟨rfl, rfl⟩,
    fun κ _ clock => generatorFromMachine_eq machine clock, fun env => ?_⟩
  rcases settled_or_refused env machine.fingerprint.text {} with ⟨i, hi⟩ | ⟨role, wrong, he⟩
  · obtain ⟨address, hgenerator, hvals⟩ := hi.exists_address
    have hsettles : ∀ role : Role,
        role.Settles env machine.fingerprint.text none (i.get role) := by
      intro role
      rw [← hnone role]
      exact hi role
    refine ⟨i.generator, fun κ _ clock => hi.generatorFromEnvironment_eq clock, ?_, ?_, ?_, ?_⟩
    · exact iff_of_true ⟨_, hgenerator⟩ fun role => (hsettles role).unset_or_given
    · intro g hg
      rw [hgenerator] at hg
      cases hg
      refine ⟨address, rfl, fun role => ?_⟩
      rw [hvals role]
      refine ⟨(hsettles role).isAddressId_iff.mpr ?_, (i.get role).origin, hsettles role⟩
      rintro _ ⟨⟩
    · intro e he
      rw [hgenerator] at he
      cases he
    · intro hunset
      rw [hi.unique (machine.isSettled_ownIdentity hunset), machine.generator_ownIdentity]
  · refine ⟨.error (.badVariable role wrong), fun κ _ clock => he.generatorFromEnvironment_eq clock,
      iff_of_false ?_ ?_, ?_, ?_, ?_⟩
    · rintro ⟨_, ⟨⟩⟩
    · intro hall
      obtain ⟨_, hset, hwrong⟩ := he.isRefused
      rcases hall role with hunset | ⟨id, hgiven⟩
      · exact hset hunset
      · exact hwrong id hgiven
    · rintro _ ⟨⟩
    · rintro _ ⟨⟩
      exact ⟨role, wrong, rfl, he.readVariable_eq, he.set⟩
    · intro hunset
      exact absurd (hunset role) he.isRefused.2.1

end IdMint
