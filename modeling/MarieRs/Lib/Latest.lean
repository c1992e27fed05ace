import Mathlib

/-! Logs that tell, time after time, what becomes of a key, and stores that go by what they told
last. -/

namespace MarieRs.Lib.Latest

variable {K V W S : Type*} [DecidableEq K]

/-- What a log told last of a key. -/
def latest (log : List (K × V)) (key : K) : Option V :=
  (log.reverse.find? fun entry => entry.1 = key).map Prod.snd

@[simp] theorem latest_nil (key : K) : latest ([] : List (K × V)) key = none := rfl

theorem latest_concat (log : List (K × V)) (key key' : K) (v : V) :
    latest (log ++ [(key', v)]) key = if key' = key then some v else latest log key := by
  unfold latest
  rw [List.reverse_append, List.reverse_singleton, List.singleton_append, List.find?_cons]
  by_cases h : key' = key
  · simp [h]
  · simp [h]

/-- What is told of the keys may be put otherwise. -/
theorem latest_map (f : K → V → W) (log : List (K × V)) (key : K) :
    latest (log.map fun entry => (entry.1, f entry.1 entry.2)) key =
      (latest log key).map (f key) := by
  induction log using List.reverseRecOn with
  | nil => rfl
  | append_singleton log entry ih =>
    rw [List.map_append, List.map_singleton, latest_concat, latest_concat, ih]
    by_cases h : entry.1 = key
    · rw [if_pos h, if_pos h, Option.map_some, h]
    · rw [if_neg h, if_neg h]

/-- The store has under every key what the log told of it last, if that is anything. -/
def Keeps (lookup : S → K → Option V) (log : List (K × Option V)) (s : S) : Prop :=
  ∀ key, lookup s key = (latest log key).join

theorem Keeps.start {lookup : S → K → Option V} {s : S} (h : ∀ key, lookup s key = none) :
    Keeps lookup [] s := fun key => h key

/-- A store that changes what the log tells, and nothing else, keeps it. -/
theorem Keeps.write {lookup : S → K → Option V} {log : List (K × Option V)} {s s' : S}
    (h : Keeps lookup log s) {key : K} {v : Option V} (hkey : lookup s' key = v)
    (hother : ∀ other, other ≠ key → lookup s' other = lookup s other) :
    Keeps lookup (log ++ [(key, v)]) s' := by
  intro other
  rw [latest_concat]
  by_cases heq : key = other
  · rw [if_pos heq, ← heq, hkey]
    rfl
  · rw [if_neg heq, hother other (Ne.symm heq), h other]

end MarieRs.Lib.Latest
