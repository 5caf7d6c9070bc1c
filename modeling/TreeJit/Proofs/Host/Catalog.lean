import Mathlib.Data.List.Nodup
import TreeJit.Host.Catalog

/-!
# The catalog of operations

An addition asks something of the operation alone (`Operation.Proper`), and that its name is new.
It goes to the end of the catalog, so names stay distinct, and a name stands for the one operation
that has it.
-/

namespace TreeJit.Host

open SSA

/-- what an addition asks of an operation, whatever the catalog holds -/
structure Operation.Proper (op : Operation) : Prop where
  named : op.name ≠ ""
  placed : op.entry.address ≠ 0
  typed : ∀ t ∈ op.sig.params ++ op.sig.returns, t.isValid = true

theorem Operation.check_eq_ok_iff (op : Operation) :
    op.sig.check = .ok () ↔ ∀ t ∈ op.sig.params ++ op.sig.returns, t.isValid = true := by
  rw [Signature.check_eq_ok_iff, Signature.isValid]
  simp only [Bool.and_eq_true, List.all_eq_true, List.mem_append, or_imp, forall_and]

namespace Catalog
variable {c c' : Catalog} {op : Operation} {name : String}

def names (c : Catalog) : List String := c.ops.map Operation.name

theorem mem_names : name ∈ c.names ↔ ∃ o ∈ c.ops, o.name = name := List.mem_map

theorem find?_isSome_iff : (c.find? name).isSome = true ↔ name ∈ c.names := by
  rw [find?, List.find?_isSome, mem_names]
  simp only [beq_iff_eq]

/-! ## additions -/

/-- **What an addition does**, and when. -/
theorem add_eq_ok_iff :
    c.add op = .ok c' ↔ op.Proper ∧ op.name ∉ c.names ∧ c' = ⟨c.ops ++ [op]⟩ := by
  unfold add
  split
  · rename_i h
    exact ⟨nofun, fun ⟨hp, _⟩ => absurd h hp.named⟩
  · rename_i h0
    split
    · rename_i h
      exact ⟨nofun, fun ⟨hp, _⟩ => absurd h hp.placed⟩
    · rename_i h1
      split
      · rename_i f hf
        refine ⟨nofun, fun ⟨hp, _⟩ => ?_⟩
        rw [(Operation.check_eq_ok_iff op).mpr hp.typed] at hf
        cases hf
      · rename_i hs
        have hp : op.Proper := ⟨h0, h1, (Operation.check_eq_ok_iff op).mp hs⟩
        split
        · rename_i hin
          exact ⟨nofun, fun ⟨_, hnew, _⟩ => absurd (find?_isSome_iff.mp hin) hnew⟩
        · rename_i hnew
          exact ⟨fun h => ⟨hp, fun hin => hnew (find?_isSome_iff.mpr hin), (Except.ok.inj h).symm⟩,
            fun ⟨_, _, h⟩ => by rw [h]⟩

theorem add_taken (hp : op.Proper) (h : op.name ∈ c.names) :
    c.add op = .error (.duplicateOperation op.name) := by
  rw [add, if_neg hp.named, if_neg hp.placed, (Operation.check_eq_ok_iff op).mpr hp.typed]
  exact if_pos (find?_isSome_iff.mpr h)

theorem names_of_add (h : c.add op = .ok c') : c'.names = c.names ++ [op.name] := by
  obtain ⟨-, -, rfl⟩ := add_eq_ok_iff.mp h
  exact List.map_append

theorem nodup_add (hd : c.names.Nodup) (h : c.add op = .ok c') : c'.names.Nodup := by
  obtain ⟨-, hnew, -⟩ := add_eq_ok_iff.mp h
  rw [names_of_add h]
  exact hd.append (List.nodup_singleton _) (by simpa using hnew)

/-! ## look-ups -/

theorem find?_eq_some_iff (hd : c.names.Nodup) :
    c.find? name = some op ↔ op ∈ c.ops ∧ op.name = name := by
  constructor
  · intro h
    exact ⟨List.mem_of_find?_eq_some h, by simpa using List.find?_some h⟩
  · rintro ⟨hmem, rfl⟩
    obtain ⟨o, ho⟩ := Option.isSome_iff_exists.mp (find?_isSome_iff.mpr (mem_names.mpr ⟨op, hmem, rfl⟩))
    have hname : o.name = op.name := by simpa using List.find?_some ho
    rw [ho, List.inj_on_of_nodup_map hd (List.mem_of_find?_eq_some ho) hmem hname]

theorem resolve_eq_ok_iff (hd : c.names.Nodup) :
    c.resolve name = .ok op ↔ op ∈ c.ops ∧ op.name = name := by
  rw [← find?_eq_some_iff hd, resolve]
  cases c.find? name <;> simp

theorem resolve_unknown (h : name ∉ c.names) : c.resolve name = .error (.unknownOperation name) := by
  have hf : c.find? name = none := by
    cases hf : c.find? name with
    | none => rfl
    | some op => exact absurd (find?_isSome_iff.mp (by rw [hf]; rfl)) h
  rw [resolve, hf]

end Catalog
end TreeJit.Host
