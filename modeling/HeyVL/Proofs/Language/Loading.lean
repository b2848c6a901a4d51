import HeyVL.Language.Loader

namespace HeyVL

namespace Descriptor

variable {d : Descriptor} {cause : VersionError}

theorem accepts_iff :
    oldestVersion ≤ d.version ∧ d.version ≤ newestVersion ↔ d.version = 13 ∨ d.version = 14 := by
  simp only [UInt32.le_iff_toNat_le, ← UInt32.toNat_inj, oldestVersion, newestVersion,
    UInt32.reduceToNat]
  omega

theorem check_eq_ok_iff : d.check = .ok () ↔ d.version = 13 ∨ d.version = 14 := by
  rw [← accepts_iff, check]
  split <;> simp_all

theorem version_of_check_eq_error (h : d.check = .error cause) : cause.version = d.version := by
  rw [check] at h
  split at h <;> cases h
  rfl

theorem toNat_kinds_language (d : Descriptor) :
    d.language.kinds.toNat = (d.symbols.toNat + d.aliases.toNat) % UInt32.size :=
  UInt32.toNat_add d.symbols d.aliases

end Descriptor

namespace Language

variable {descriptor : Option Descriptor} {d : Descriptor} {cause : VersionError}
  {result : Except LoadError Language} {line : LogLine}

/-- The result of an attempt to load and its line in the log tell the same of the descriptor. -/
structure Tells (descriptor : Option Descriptor) (result : Except LoadError Language)
    (line : LogLine) : Prop where
  succeeds : (∃ l, result = .ok l) ↔ ∃ d, descriptor = some d ∧ (d.version = 13 ∨ d.version = 14)
  /-- What is loaded has the version of the descriptor and the kinds of its symbols and aliases, and
  the line shows both. -/
  loaded : ∀ l, result = .ok l → ∃ d, descriptor = some d ∧ l.version = d.version ∧
    l.kinds.toNat = (d.symbols.toNat + d.aliases.toNat) % UInt32.size ∧
    line = ⟨.debug, "loaded HeyVL grammar (abi " ++ toString l.version.toNat ++ ", " ++
      toString l.kinds.toNat ++ " node kinds)"⟩
  /-- The line of a failure is its message and its cause, which is the error behind it if it has
  one. -/
  failed : ∀ e, result = .error e → ∃ cause, line = ⟨.error, e.message ++ ": " ++ cause⟩ ∧
    (e = .nullDescriptor ∧ descriptor = none ∧ e.source? = none ∧
        cause = "grammar accessor returned null" ∨
      ∃ d version, e = .incompatible version ∧ descriptor = some d ∧ version.version = d.version ∧
        e.source? = some cause)
  message : ∀ e : LoadError, e.message = "Error loading HeyVL grammar"

theorem run_load_none (log : Log) :
    (load none).run.run log =
      (.error .nullDescriptor,
        log ++ [⟨.error, failureMessage ++ ": grammar accessor returned null"⟩]) :=
  rfl

theorem run_load_of_error (h : d.check = .error cause) (log : Log) :
    (load (some d)).run.run log =
      (.error (.incompatible cause), log ++ [⟨.error, failureMessage ++ ": " ++ cause.text⟩]) := by
  rw [load, h]
  rfl

theorem run_load_of_ok (h : d.check = .ok ()) (log : Log) :
    (load (some d)).run.run log = (.ok d.language, log ++ [⟨.debug, d.language.report⟩]) := by
  rw [load, h]
  rfl

theorem message_eq (e : LoadError) : e.message = failureMessage := by
  cases e <;> rfl

theorem exists_run_load (descriptor : Option Descriptor) :
    ∃ result line, Tells descriptor result line ∧
      ∀ log, (load descriptor).run.run log = (result, log ++ [line]) := by
  cases descriptor with
  | none =>
    refine ⟨_, _, ⟨by simp, by simp, ?_, message_eq⟩, run_load_none⟩
    rintro e ⟨⟩
    exact ⟨_, rfl, .inl ⟨rfl, rfl, rfl, rfl⟩⟩
  | some d =>
    cases hd : d.check with
    | error cause =>
      have hversion : ¬ (d.version = 13 ∨ d.version = 14) := by
        simp [← Descriptor.check_eq_ok_iff, hd]
      refine ⟨_, _, ⟨by simpa using hversion, by simp, ?_, message_eq⟩, run_load_of_error hd⟩
      rintro e ⟨⟩
      exact ⟨_, rfl, .inr ⟨d, cause, rfl, rfl, Descriptor.version_of_check_eq_error hd, rfl⟩⟩
    | ok =>
      have hversion := Descriptor.check_eq_ok_iff.mp hd
      refine ⟨_, _, ⟨by simpa using hversion, ?_, by simp, message_eq⟩, run_load_of_ok hd⟩
      rintro l ⟨⟩
      exact ⟨d, rfl, rfl, d.toNat_kinds_language, rfl⟩

theorem run_loads_succ (descriptor : Option Descriptor) (n : Nat) (log : Log) :
    (loads descriptor (n + 1)).run log =
      let (result, log) := (load descriptor).run.run log
      let (results, log) := (loads descriptor n).run log
      (result :: results, log) :=
  rfl

theorem run_loads (h : ∀ log, (load descriptor).run.run log = (result, log ++ [line])) (n : Nat)
    (log : Log) :
    (loads descriptor n).run log = (List.replicate n result, log ++ List.replicate n line) := by
  induction n generalizing log with
  | zero =>
    rw [List.replicate_zero, List.replicate_zero, List.append_nil]
    rfl
  | succ n ih =>
    rw [run_loads_succ, h]
    simp only [ih, List.replicate_succ, List.append_assoc, List.singleton_append]

/-- All attempts to load a descriptor come to the same result, each of them adds the line that tells
it to those of the attempts before, and there are no other lines. -/
theorem loads_alike (descriptor : Option Descriptor) :
    ∃ result line, Tells descriptor result line ∧
      (∀ log, (load descriptor).run.run log = (result, log ++ [line])) ∧
      ∀ n, loadTimes descriptor n = (List.replicate n result, List.replicate n line) := by
  obtain ⟨result, line, htells, hload⟩ := exists_run_load descriptor
  refine ⟨result, line, htells, hload, fun n => ?_⟩
  rw [loadTimes, run_loads hload, List.nil_append]

end Language

end HeyVL
