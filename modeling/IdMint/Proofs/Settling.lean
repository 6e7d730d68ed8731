import IdMint.Identity.Resolution
import IdMint.Proofs.Issuing
import IdMint.Proofs.Variables

/-!
# Each id is settled on its own

Worker and datacenter go through one helper, one after the other, and an error of the
first keeps the second from being looked at. `Settles` says what an id of one role may
come from, and mentions the other role nowhere. An identity that was found settles both
roles, so what is changed about one leaves the other as it was.

The rest is about ranges. A variable gives no id out of range, and five bits of a digest
hold none, so the generator can only refuse what the caller gave.
-/

namespace IdMint

/-- The id can be a part of an address. -/
def IsAddressId (id : Int) : Prop := 0 ≤ id ∧ id ≤ maxAddressId

instance (id : Int) : Decidable (IsAddressId id) := inferInstanceAs (Decidable (_ ∧ _))

def Overrides.get (o : Overrides) : Role → Option Int
  | .worker => o.worker
  | .datacenter => o.datacenter

theorem Overrides.get_set (o : Overrides) (role other : Role) (id? : Option Int) :
    (o.set role id?).get other = if other = role then id? else o.get other := by
  cases role <;> cases other <;> rfl

def Address.get (a : Address) : Role → Fin 32
  | .worker => a.worker
  | .datacenter => a.datacenter

theorem forall_role {P : Role → Prop} : (∀ role, P role) ↔ P .worker ∧ P .datacenter := by
  constructor
  · intro h
    exact ⟨h .worker, h .datacenter⟩
  · rintro ⟨hworker, hdatacenter⟩ role
    cases role with
    | worker => exact hworker
    | datacenter => exact hdatacenter

namespace Role

variable {role : Role} {env : Environment}

/-! ## What the variable of a role says -/

/-- The variable says nothing. -/
def IsUnset (role : Role) (env : Environment) : Prop :=
  env role.variableName = none ∨ env role.variableName = some []

/-- The variable says an id that can be a part of an address. -/
def IsGiven (role : Role) (env : Environment) (id : Int) : Prop :=
  ∃ text, env role.variableName = some text ∧ Says text id ∧ IsAddressId id

theorem readVariable_eq_notSet_iff : role.readVariable env = .error .notSet ↔ role.IsUnset env :=
  readId_eq_notSet_iff

theorem readVariable_eq_ok_iff {id : Int} :
    role.readVariable env = .ok id ↔ role.IsGiven env id := by
  have hmax : maxAddressId = 31 := rfl
  rw [readVariable, readId_eq_ok_iff]
  constructor
  · rintro ⟨text, htext, hsaid, _, hrange⟩
    exact ⟨text, htext, hsaid, hrange⟩
  · rintro ⟨text, htext, hsaid, hrange⟩
    exact ⟨text, htext, hsaid, ⟨by have := hrange.1; omega, by have := hrange.2; omega⟩, hrange⟩

theorem readVariable_congr {env' : Environment}
    (h : env' role.variableName = env role.variableName) :
    role.readVariable env' = role.readVariable env := congrArg (readId maxAddressId) h

theorem IsGiven.not_isUnset {id : Int} (h : role.IsGiven env id) : ¬ role.IsUnset env := by
  intro hunset
  have hread := readVariable_eq_ok_iff.mpr h
  rw [readVariable_eq_notSet_iff.mpr hunset] at hread
  cases hread

theorem IsGiven.unique {id id' : Int} (h : role.IsGiven env id) (h' : role.IsGiven env id') :
    id = id' := by
  have hread := readVariable_eq_ok_iff.mpr h
  rw [readVariable_eq_ok_iff.mpr h'] at hread
  exact (Except.ok.inj hread).symm

/-! ## One id -/

/-- The id that a fingerprint gives for a role. -/
def derivedId (role : Role) (fingerprint : Bytes) : Fin 32 :=
  bucket (Sha256.digest (fingerprint ++ role.suffix))

/-- Where an id for the role comes from, under an override and the text of a fingerprint. -/
inductive Settles (role : Role) (env : Environment) (fingerprint : Bytes) :
    Option Int → Assignment → Prop
  /-- An override is taken whatever the variable says, and whatever it is itself. -/
  | explicit (id : Int) : Settles role env fingerprint (some id) { id, origin := .explicit }
  | environment {id : Int} (hgiven : role.IsGiven env id) :
      Settles role env fingerprint none { id, origin := .environment }
  | machine (hunset : role.IsUnset env) :
      Settles role env fingerprint none
        { id := (role.derivedId fingerprint).val, origin := .machine }

/-- There is no override, and the variable is set to something wrong. -/
def IsRefused (role : Role) (env : Environment) (override : Option Int) : Prop :=
  override = none ∧ ¬ role.IsUnset env ∧ ∀ id, ¬ role.IsGiven env id

variable {fingerprint : Bytes} {override : Option Int} {a a' : Assignment}

theorem settled_or_refused (role : Role) (env : Environment) (fingerprint : Bytes)
    (override : Option Int) :
    (∃ a, role.Settles env fingerprint override a) ∨ role.IsRefused env override := by
  cases override with
  | some id => exact .inl ⟨_, .explicit id⟩
  | none =>
      by_cases hunset : role.IsUnset env
      · exact .inl ⟨_, .machine hunset⟩
      · by_cases hgiven : ∃ id, role.IsGiven env id
        · obtain ⟨id, hgiven⟩ := hgiven
          exact .inl ⟨_, .environment hgiven⟩
        · exact .inr ⟨rfl, hunset, not_exists.mp hgiven⟩

theorem Settles.unique (h : role.Settles env fingerprint override a)
    (h' : role.Settles env fingerprint override a') : a = a' := by
  cases h with
  | explicit id =>
      cases h' with
      | explicit => rfl
  | environment hgiven =>
      cases h' with
      | environment hgiven' => rw [hgiven.unique hgiven']
      | machine hunset => exact absurd hunset hgiven.not_isUnset
  | machine hunset =>
      cases h' with
      | environment hgiven => exact absurd hunset hgiven.not_isUnset
      | machine => rfl

theorem Settles.not_isRefused (h : role.Settles env fingerprint override a) :
    ¬ role.IsRefused env override := by
  rintro ⟨hoverride, hset, hwrong⟩
  cases h with
  | explicit => cases hoverride
  | environment hgiven => exact hwrong _ hgiven
  | machine hunset => exact hset hunset

theorem Settles.unset_or_given (h : role.Settles env fingerprint none a) :
    role.IsUnset env ∨ ∃ id, role.IsGiven env id := by
  cases h with
  | environment hgiven => exact .inr ⟨_, hgiven⟩
  | machine hunset => exact .inl hunset

/-- Of the variables only the role's own counts. -/
theorem Settles.congr {env' : Environment} (h : role.Settles env fingerprint override a)
    (henv : env' role.variableName = env role.variableName) :
    role.Settles env' fingerprint override a := by
  cases h with
  | explicit id => exact .explicit id
  | environment hgiven =>
      refine .environment ?_
      rwa [IsGiven, henv]
  | machine hunset =>
      refine .machine ?_
      rwa [IsUnset, henv]

/-- An id that no caller gave can be a part of an address. -/
theorem Settles.isAddressId_iff (h : role.Settles env fingerprint override a) :
    IsAddressId a.id ↔ ∀ id, override = some id → IsAddressId id := by
  cases h with
  | explicit id =>
      constructor
      · rintro hid _ ⟨⟩
        exact hid
      · intro hall
        exact hall id rfl
  | environment hgiven =>
      obtain ⟨_, _, _, hrange⟩ := hgiven
      exact iff_of_true hrange (by rintro _ ⟨⟩)
  | machine =>
      have hlt := (role.derivedId fingerprint).isLt
      have hmax : maxAddressId = 31 := rfl
      have hrange : IsAddressId (role.derivedId fingerprint).val := ⟨by omega, by omega⟩
      exact iff_of_true hrange (by rintro _ ⟨⟩)

theorem exists_error_of_isRefused (h : role.IsRefused env override) :
    ∃ e, role.readVariable env = .error e ∧ e ≠ .notSet := by
  obtain ⟨_, hset, hwrong⟩ := h
  cases hread : role.readVariable env with
  | ok id => exact absurd (readVariable_eq_ok_iff.mp hread) (hwrong id)
  | error e =>
      refine ⟨e, rfl, ?_⟩
      rintro rfl
      exact hset (readVariable_eq_notSet_iff.mp hread)

end Role

/-! ## Both ids -/

/-- The first role that is refused is refused with this error. -/
structure Refuses (env : Environment) (overrides : Overrides) (role : Role) (e : VariableError) :
    Prop where
  isRefused : role.IsRefused env (overrides.get role)
  readVariable_eq : role.readVariable env = .error e
  set : e ≠ .notSet
  first : Role.worker.IsRefused env overrides.worker → role = .worker

/-- The identity settles both roles. -/
def Identity.IsSettled (i : Identity) (env : Environment) (fingerprint : Bytes)
    (overrides : Overrides) : Prop :=
  ∀ role : Role, role.Settles env fingerprint (overrides.get role) (i.get role)

theorem settled_or_refused (env : Environment) (fingerprint : Bytes) (overrides : Overrides) :
    (∃ i : Identity, i.IsSettled env fingerprint overrides) ∨
      ∃ role e, Refuses env overrides role e := by
  rcases Role.worker.settled_or_refused env fingerprint overrides.worker with ⟨worker, hw⟩ | hw
  · rcases Role.datacenter.settled_or_refused env fingerprint overrides.datacenter with
      ⟨datacenter, hd⟩ | hd
    · exact .inl ⟨{ worker, datacenter }, forall_role.mpr ⟨hw, hd⟩⟩
    · obtain ⟨e, hread, hset⟩ := Role.exists_error_of_isRefused hd
      exact .inr ⟨.datacenter, e, hd, hread, hset, fun h => absurd h hw.not_isRefused⟩
  · obtain ⟨e, hread, hset⟩ := Role.exists_error_of_isRefused hw
    exact .inr ⟨.worker, e, hw, hread, hset, fun _ => rfl⟩

theorem Identity.IsSettled.unique {i i' : Identity} {env : Environment} {fingerprint : Bytes}
    {overrides : Overrides} (h : i.IsSettled env fingerprint overrides)
    (h' : i'.IsSettled env fingerprint overrides) : i = i' := by
  obtain ⟨worker, datacenter⟩ := i
  obtain ⟨worker', datacenter'⟩ := i'
  obtain rfl : worker = worker' := (h .worker).unique (h' .worker)
  obtain rfl : datacenter = datacenter' := (h .datacenter).unique (h' .datacenter)
  rfl

section

variable {κ : Type} [Source κ Instant] {env : Environment} {fingerprint : Fingerprint}
  {overrides : Overrides}

theorem deriveId_of_ne_nil {fingerprint : Bytes} (h : fingerprint ≠ []) (suffix : Bytes)
    (clock : Supply κ) :
    deriveId fingerprint suffix clock
      = some (bucket (Sha256.digest (fingerprint ++ suffix)), clock) := by
  rw [deriveId, if_neg (by rwa [List.isEmpty_iff])]

theorem Role.Settles.resolve_eq {role : Role} {override : Option Int} {a : Assignment}
    (h : role.Settles env fingerprint.text override a) (hfp : fingerprint.text ≠ [])
    (clock : Supply κ) : role.resolve env fingerprint override clock = some (.ok a, clock) := by
  rw [Role.resolve, deriveId_of_ne_nil hfp]
  cases h with
  | explicit id => rfl
  | environment hgiven =>
      rw [Role.readVariable_eq_ok_iff.mpr hgiven]
      rfl
  | machine hunset =>
      rw [Role.readVariable_eq_notSet_iff.mpr hunset]
      rfl

theorem Role.resolve_of_error {role : Role} {e : VariableError}
    (hread : role.readVariable env = .error e) (hset : e ≠ .notSet)
    (hfp : fingerprint.text ≠ []) (clock : Supply κ) :
    role.resolve env fingerprint none clock = some (.error (.badVariable role e), clock) := by
  rw [Role.resolve, deriveId_of_ne_nil hfp, hread]
  cases e with
  | notSet => exact absurd rfl hset
  | notDecimal => rfl
  | outOfRange => rfl

/-- A settled identity is found, without a reading of the clock. -/
theorem Identity.IsSettled.resolve_eq {i : Identity}
    (h : i.IsSettled env fingerprint.text overrides) (hfp : fingerprint.text ≠ [])
    (clock : Supply κ) :
    resolve env fingerprint overrides clock = some (.ok i, clock) := by
  have hworker := (h .worker).resolve_eq hfp clock
  have hdatacenter := (h .datacenter).resolve_eq hfp clock
  simp only [Overrides.get] at hworker hdatacenter
  rw [resolve, hworker]
  show (Role.datacenter.resolve env fingerprint overrides.datacenter clock).bind _ = _
  rw [hdatacenter]
  rfl

/-- An error is that of the first role that is refused. -/
theorem Refuses.resolve_eq {role : Role} {e : VariableError} (h : Refuses env overrides role e)
    (hfp : fingerprint.text ≠ []) (clock : Supply κ) :
    resolve env fingerprint overrides clock = some (.error (.badVariable role e), clock) := by
  have hnone := h.isRefused.1
  have herror := Role.resolve_of_error h.readVariable_eq h.set hfp clock
  cases role with
  | worker =>
      simp only [Overrides.get] at hnone
      rw [resolve, hnone, herror]
      rfl
  | datacenter =>
      simp only [Overrides.get] at hnone
      rcases Role.worker.settled_or_refused env fingerprint.text overrides.worker with
        ⟨worker, hworker⟩ | hworker
      · rw [resolve, hworker.resolve_eq hfp clock, hnone]
        show (Role.datacenter.resolve env fingerprint none clock).bind _ = _
        rw [herror]
        rfl
      · cases h.first hworker

/-- What an identity comes to under a fingerprint that is not empty, it comes to without a
reading of the clock. -/
theorem resolve_of_fingerprint (env : Environment) (hfp : fingerprint.text ≠ [])
    (overrides : Overrides) :
    ∃ result, ∀ clock : Supply κ,
      resolve env fingerprint overrides clock = some (result, clock) := by
  rcases settled_or_refused env fingerprint.text overrides with ⟨i, hi⟩ | ⟨role, e, he⟩
  · exact ⟨.ok i, hi.resolve_eq hfp⟩
  · exact ⟨.error (.badVariable role e), he.resolve_eq hfp⟩

theorem resolve_eq_ok_iff (hfp : fingerprint.text ≠ []) {i : Identity} {clock later : Supply κ} :
    resolve env fingerprint overrides clock = some (.ok i, later) ↔
      i.IsSettled env fingerprint.text overrides ∧ later = clock := by
  constructor
  · intro h
    rcases settled_or_refused env fingerprint.text overrides with ⟨i', hi⟩ | ⟨role, e, he⟩
    · rw [hi.resolve_eq hfp] at h
      cases h
      exact ⟨hi, rfl⟩
    · rw [he.resolve_eq hfp] at h
      cases h
  · rintro ⟨hi, rfl⟩
    exact hi.resolve_eq hfp _

theorem resolve_eq_error_iff (hfp : fingerprint.text ≠ []) {e : ConfigError}
    {clock later : Supply κ} :
    resolve env fingerprint overrides clock = some (.error e, later) ↔
      (∃ role wrong, e = .badVariable role wrong ∧ Refuses env overrides role wrong) ∧
        later = clock := by
  constructor
  · intro h
    rcases settled_or_refused env fingerprint.text overrides with ⟨i, hi⟩ | ⟨role, wrong, he⟩
    · rw [hi.resolve_eq hfp] at h
      cases h
    · rw [he.resolve_eq hfp] at h
      cases h
      exact ⟨⟨role, wrong, rfl, he⟩, rfl⟩
  · rintro ⟨⟨role, wrong, rfl, he⟩, rfl⟩
    exact he.resolve_eq hfp _

theorem resolve_congr {env' : Environment}
    (h : ∀ role : Role, env' role.variableName = env role.variableName) (fingerprint : Fingerprint)
    (overrides : Overrides) (clock : Supply κ) :
    resolve env' fingerprint overrides clock = resolve env fingerprint overrides clock := by
  have hread : ∀ role : Role, role.readVariable env' = role.readVariable env :=
    fun role => Role.readVariable_congr (h role)
  simp only [resolve, Role.resolve, hread]

end

/-! ## Addresses and generators -/

namespace Snowflake

theorem create_eq_map (worker datacenter : Int) :
    Generator.create worker datacenter
      = (Address.ofIds worker datacenter).map fun address => { address } := by
  rw [Generator.create]
  cases Address.ofIds worker datacenter with
  | error e => rfl
  | ok address => rfl

theorem check_of_isAddressId (role : Role) {id : Int} (h : IsAddressId id) :
    ∃ part : Fin 32, Address.check role id = .ok part ∧ (part.val : Int) = id :=
  ⟨_, dif_pos h, Int.toNat_of_nonneg h.1⟩

theorem check_of_not_isAddressId (role : Role) {id : Int} (h : ¬ IsAddressId id) :
    Address.check role id = .error { role, id } := dif_neg h

theorem ofIds_of_worker {worker : Int} {w : Fin 32} (h : Address.check .worker worker = .ok w)
    (datacenter : Int) :
    Address.ofIds worker datacenter
      = (Address.check .datacenter datacenter).map fun d => { worker := w, datacenter := d } := by
  rw [Address.ofIds, h]
  cases Address.check .datacenter datacenter <;> rfl

theorem create_of_isAddressId {worker datacenter : Int} (hw : IsAddressId worker)
    (hd : IsAddressId datacenter) :
    ∃ address : Address, Generator.create worker datacenter = .ok { address } ∧
      (address.worker.val : Int) = worker ∧ (address.datacenter.val : Int) = datacenter := by
  obtain ⟨w, hcheckw, hvalw⟩ := check_of_isAddressId .worker hw
  obtain ⟨d, hcheckd, hvald⟩ := check_of_isAddressId .datacenter hd
  refine ⟨{ worker := w, datacenter := d }, ?_, hvalw, hvald⟩
  rw [create_eq_map, ofIds_of_worker hcheckw, hcheckd]
  rfl

theorem create_refused_iff {worker datacenter : Int} :
    (∃ e, Generator.create worker datacenter = .error e) ↔
      ¬ (IsAddressId worker ∧ IsAddressId datacenter) := by
  constructor
  · rintro ⟨e, he⟩ ⟨hw, hd⟩
    obtain ⟨address, hcreate, _⟩ := create_of_isAddressId hw hd
    rw [hcreate] at he
    cases he
  · intro h
    by_cases hw : IsAddressId worker
    · obtain ⟨w, hcheckw, _⟩ := check_of_isAddressId .worker hw
      refine ⟨{ role := .datacenter, id := datacenter }, ?_⟩
      rw [create_eq_map, ofIds_of_worker hcheckw,
        check_of_not_isAddressId .datacenter fun hd => h ⟨hw, hd⟩]
      rfl
    · refine ⟨{ role := .worker, id := worker }, ?_⟩
      rw [create_eq_map, Address.ofIds, check_of_not_isAddressId .worker hw]
      rfl

end Snowflake

/-- The generator refuses nothing but what a caller gave. -/
theorem Identity.IsSettled.create_refused_iff {i : Identity} {env : Environment}
    {fingerprint : Bytes} {overrides : Overrides} (h : i.IsSettled env fingerprint overrides) :
    (∃ e, Snowflake.Generator.create i.worker.id i.datacenter.id = .error e) ↔
      ∃ role id, overrides.get role = some id ∧ ¬ IsAddressId id := by
  have hboth : IsAddressId i.worker.id ∧ IsAddressId i.datacenter.id ↔
      ∀ role id, overrides.get role = some id → IsAddressId id := by
    rw [forall_role]
    exact and_congr (h .worker).isAddressId_iff (h .datacenter).isAddressId_iff
  rw [Snowflake.create_refused_iff, hboth]
  simp only [not_forall, exists_prop]

/-! ## Warnings -/

/-- The warning that an id of a role was derived. -/
def Role.warning (role : Role) (id : Int) : Bytes :=
  ascii "WARNING: " ++ role.name ++ ascii " id " ++ Decimal.ofInt id
    ++ ascii " was derived from the machine fingerprint.\n"
    ++ ascii "         Derived ids are not coordinated; set " ++ role.variableName
    ++ ascii " to guarantee uniqueness."

/-- The roles whose ids were derived, the worker first. -/
def Identity.derivedRoles (i : Identity) : List Role :=
  [Role.worker, Role.datacenter].filter fun role => (i.get role).origin = .machine

/-- Whoever relies on a derived id is warned of it, and of nothing else. -/
theorem Identity.warnings_eq (i : Identity) :
    i.warnings = i.derivedRoles.map fun role => role.warning (i.get role).id := by
  have hone : ∀ role : Role, (i.get role).warning? role
      = if (i.get role).origin = .machine then some (role.warning (i.get role).id) else none :=
    fun _ => rfl
  rw [warnings, derivedRoles]
  simp only [hone, ← List.filterMap_eq_map, List.filterMap_filter, decide_eq_true_eq]
  rfl

/-! ## Main statement -/

section

variable {κ : Type} [Source κ Instant]

/-- Each id is settled on its own, under a fingerprint that is not empty. The identity that
is found is the one that settles both roles, each from the first of override, variable and
fingerprint that applies to it. None is found exactly if a role without an override has a
variable that is set to something wrong, and the error is that variable's, the worker's if
both are. An identity found under another environment and other overrides has the same id,
from the same origin, for a role whose variable and override are the same; and under
variables that differ in other names only all is the same. The ids make a generator unless
one is out of range that the caller gave. The warnings name the ids that were derived. -/
theorem ids_settled_on_their_own (env : Environment) {fingerprint : Fingerprint}
    (hfp : fingerprint.text ≠ []) (overrides : Overrides) (clock : Supply κ) :
    ∃ result, resolve env fingerprint overrides clock = some (result, clock) ∧
      (∀ i, result = .ok i ↔
        ∀ role : Role, role.Settles env fingerprint.text (overrides.get role) (i.get role)) ∧
      ((∃ e, result = .error e) ↔ ∃ role : Role, role.IsRefused env (overrides.get role)) ∧
      (∀ e, result = .error e →
        ∃ role wrong, e = .badVariable role wrong ∧ role.readVariable env = .error wrong ∧
          role.IsRefused env (overrides.get role) ∧
          (Role.worker.IsRefused env overrides.worker → role = .worker)) ∧
      (∀ (env' : Environment) (overrides' : Overrides) (i i' : Identity) (clock' later : Supply κ),
        result = .ok i →
        resolve env' fingerprint overrides' clock' = some (.ok i', later) →
        ∀ role : Role, env' role.variableName = env role.variableName →
          overrides'.get role = overrides.get role → i'.get role = i.get role) ∧
      (∀ env' : Environment,
        (∀ role : Role, env' role.variableName = env role.variableName) →
        resolve env' fingerprint overrides clock = some (result, clock)) ∧
      (∀ i, result = .ok i →
        ((∃ e, Snowflake.Generator.create i.worker.id i.datacenter.id = .error e) ↔
          ∃ role id, overrides.get role = some id ∧ ¬ IsAddressId id) ∧
        i.warnings = i.derivedRoles.map fun role => role.warning (i.get role).id) := by
  obtain ⟨result, hresult⟩ := resolve_of_fingerprint (κ := κ) env hfp overrides
  have hok : ∀ i, result = .ok i ↔ i.IsSettled env fingerprint.text overrides := by
    intro i
    have hiff : some (result, clock) = some (.ok i, clock) ↔
        i.IsSettled env fingerprint.text overrides ∧ clock = clock := by
      rw [← hresult clock]
      exact resolve_eq_ok_iff hfp
    simpa using hiff
  have herror : ∀ e, result = .error e ↔
      ∃ role wrong, e = .badVariable role wrong ∧ Refuses env overrides role wrong := by
    intro e
    have hiff : some (result, clock) = some (.error e, clock) ↔
        (∃ role wrong, e = .badVariable role wrong ∧ Refuses env overrides role wrong) ∧
          clock = clock := by
      rw [← hresult clock]
      exact resolve_eq_error_iff hfp
    simpa using hiff
  refine ⟨result, hresult clock, hok, ?_, ?_, ?_, ?_, ?_⟩
  · constructor
    · rintro ⟨e, he⟩
      obtain ⟨role, wrong, _, hrefuses⟩ := (herror e).mp he
      exact ⟨role, hrefuses.isRefused⟩
    · rintro ⟨role, hrole⟩
      cases hres : result with
      | ok i => exact absurd hrole ((hok i).mp hres role).not_isRefused
      | error e => exact ⟨e, rfl⟩
  · intro e he
    obtain ⟨role, wrong, heq, hrefuses⟩ := (herror e).mp he
    exact ⟨role, wrong, heq, hrefuses.readVariable_eq, hrefuses.isRefused, hrefuses.first⟩
  · intro env' overrides' i i' clock' later hi h role henv hoverride
    have hi' := ((resolve_eq_ok_iff hfp).mp h).1 role
    rw [hoverride] at hi'
    exact (hi'.congr henv.symm).unique ((hok i).mp hi role)
  · intro env' henv
    rw [resolve_congr henv]
    exact hresult clock
  · intro i hi
    exact ⟨((hok i).mp hi).create_refused_iff, i.warnings_eq⟩

end

/-- An override out of range for the worker, whose variable holds no number, and a variable
for the datacenter. Neither what is wrong about the worker's variable nor what is wrong about
its override keeps the datacenter from its own id; but the generator refuses the override. -/
theorem ids_settled_on_their_own_beside_wrong_variable :
    let env : Environment :=
      .ofEntries [ascii "IDWORKER_WORKER_ID=x", ascii "IDWORKER_DATACENTER_ID=+7"]
    let fingerprint : Fingerprint := { processId := ascii "1" }
    let clock : Supply (Tape Instant) := { state := ⟨[], ⟨0⟩⟩, allowance := 0 }
    fingerprint.text ≠ [] ∧ (∀ id, ¬ Role.worker.IsGiven env id) ∧
      ∃ i : Identity, resolve env fingerprint { worker := some 40 } clock = some (.ok i, clock) ∧
        i.worker = ⟨40, .explicit⟩ ∧ i.datacenter = ⟨7, .environment⟩ ∧
        ∃ e, Snowflake.Generator.create i.worker.id i.datacenter.id = .error e := by
  intro env fingerprint clock
  have hfp : fingerprint.text ≠ [] := by decide
  have hworker : Role.worker.readVariable env = .error (.notDecimal (ascii "x")) := by decide
  have hdatacenter : Role.datacenter.readVariable env = .ok 7 := by decide
  obtain ⟨result, hresult, hok, _, _, _, _, hgenerator⟩ :=
    ids_settled_on_their_own env hfp { worker := some 40 } clock
  let i : Identity := ⟨⟨40, .explicit⟩, ⟨7, .environment⟩⟩
  have hi : result = .ok i :=
    (hok i).mpr (forall_role.mpr
      ⟨.explicit 40, .environment (Role.readVariable_eq_ok_iff.mp hdatacenter)⟩)
  refine ⟨hfp, fun id hgiven => ?_, i, hi ▸ hresult, rfl, rfl, ?_⟩
  · rw [Role.readVariable_eq_ok_iff.mpr hgiven] at hworker
    cases hworker
  · exact (hgenerator i hi).1.mpr ⟨.worker, 40, rfl, by decide⟩

end IdMint
