import ApueCourse.Db.Processes
import Mathlib.Data.Set.Finite.Basic

/-! What the calls on keys mean: a finite map from keys to data. -/

namespace ApueCourse.Db

open Memory Function

abbrev Bindings := List Byte → Option (List Byte)

/-- A C string that is not empty and that a reader can tell from the rest of its record. -/
def KeyOk (key : List Byte) : Prop := key ≠ [] ∧ SEP ∉ key ∧ 0 ∉ key

instance (key : List Byte) : Decidable (KeyOk key) :=
  inferInstanceAs (Decidable (_ ∧ _ ∧ _))

namespace Call

def key : Call → List Byte
  | .fetch key | .store key _ _ | .delete key => key
  | .open _ | .rewind | .nextrec => []

/-- The calls on a key with C strings as arguments. -/
def OnKey : Call → Prop
  | .fetch key | .delete key => KeyOk key
  | .store key data _ => KeyOk key ∧ 0 ∉ data
  | .open _ | .rewind | .nextrec => False

instance : DecidablePred OnKey
  | .fetch key | .delete key => inferInstanceAs (Decidable (KeyOk key))
  | .store key data _ => inferInstanceAs (Decidable (KeyOk key ∧ 0 ∉ data))
  | .open _ | .rewind | .nextrec => inferInstanceAs (Decidable False)

/-- The same for any C strings. -/
def OnText : Call → Prop
  | .fetch key | .delete key => 0 ∉ key
  | .store key data _ => 0 ∉ key ∧ 0 ∉ data
  | .open _ | .rewind | .nextrec => False

instance : DecidablePred OnText
  | .fetch key | .delete key => inferInstanceAs (Decidable (0 ∉ key))
  | .store key data _ => inferInstanceAs (Decidable (0 ∉ key ∧ 0 ∉ data))
  | .open _ | .rewind | .nextrec => inferInstanceAs (Decidable False)

theorem OnKey.onText {call : Call} (hcall : call.OnKey) : call.OnText := by
  cases call with
  | fetch | delete => exact hcall.2.2
  | store => exact ⟨hcall.1.2.2, hcall.2⟩
  | «open» | rewind | nextrec => exact hcall

/-- The result of a call on a key that has the data `old`, and the data that it has then. -/
def act : Call → Option (List Byte) → Result × Option (List Byte)
  | .fetch _, old => (.data old, old)
  | .store _ data flag, old =>
      if flag ≠ DB_INSERT ∧ flag ≠ DB_REPLACE ∧ flag ≠ DB_STORE then (.code (-1), old)
      else if old = none then
        if flag = DB_REPLACE then (.code (-1), old) else (.code 0, some data)
      else
        if flag = DB_INSERT then (.code 1, old) else (.code 0, some data)
  | .delete _, old => (.code (if old = none then -1 else 0), none)
  | .open _, old | .rewind, old | .nextrec, old => (.rewound, old)

/-- A `db_store` deletes the record that the key has, as the new data has another length. -/
def Rewrites : Call → Option (List Byte) → Prop
  | .store _ data flag, some old => flag ≠ DB_INSERT ∧ old.length ≠ data.length
  | _, _ => False

/-- A call on a finite map. -/
def apply (call : Call) (map : Bindings) : Result × Bindings :=
  ((call.act (map call.key)).1, update map call.key (call.act (map call.key)).2)

theorem apply_finite (call : Call) {map : Bindings} (hmap : {key | map key ≠ none}.Finite) :
    {key | (call.apply map).2 key ≠ none}.Finite := by
  apply (hmap.insert call.key).subset
  intro key hkey
  rcases eq_or_ne key call.key with rfl | hne
  · exact Set.mem_insert ..
  · have hkey' : update map call.key (call.act (map call.key)).2 key ≠ none := hkey
    rw [update_of_ne hne] at hkey'
    exact Set.mem_insert_of_mem _ hkey'

end Call

/-- A sequence of calls on a map, with the results of all of them. -/
def replay : Bindings → List Call → List Result × Bindings
  | map, [] => ([], map)
  | map, call :: calls =>
      let rest := replay (call.apply map).2 calls
      ((call.apply map).1 :: rest.1, rest.2)

theorem replay_append (map : Bindings) (calls calls' : List Call) :
    replay map (calls ++ calls') =
      ((replay map calls).1 ++ (replay (replay map calls).2 calls').1,
        (replay (replay map calls).2 calls').2) := by
  induction calls generalizing map with
  | nil => rfl
  | cons call calls ih =>
      rw [List.cons_append, replay, replay, ih]
      rfl

theorem replay_finite {map : Bindings} (hmap : {key | map key ≠ none}.Finite)
    (calls : List Call) : {key | (replay map calls).2 key ≠ none}.Finite := by
  induction calls generalizing map with
  | nil => exact hmap
  | cons call calls ih => exact ih (call.apply_finite hmap)

end ApueCourse.Db
