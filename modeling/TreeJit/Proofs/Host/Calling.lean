import TreeJit.Proofs.Host.Module
import TreeJit.Proofs.Word.Memory

/-!
# Calling functions of a module

A call offers a function type that fits the signature, lays its buffers into memory and runs the
function of the name.  Buffers lie on pages of their own (`placements`), above the stack, so a
function finds in each buffer what the caller put there.

* `makeFunc_offered`     what a call offers is accepted;
* `layBuffers_eq`        where buffers lie;
* `bytes_layAll`         what they hold;
* `Module.Holds.call`    calling a function by its number runs its body, in a world in which the
                         built-in names mean their operations.
-/

namespace TreeJit.Host

open SSA

/-! ## the function type of a call -/

theorem carries_offered {t : Ty} (hi : t.isValid = true) (hv : t.isVector = false) (b : Bool) :
    (offered t b).carries t = true := by
  cases t <;> cases b <;> simp_all [offered, HostType.carries, Ty.isValid, Ty.isVector]

theorem isFloat_offered (t : Ty) (b : Bool) : (offered t b).isFloat = !t.isInt := by
  cases t <;> cases b <;> rfl

theorem checkCarried_ok {fault : Nat → Ty → HostType → Fault} {ts : List Ty} {hs : List HostType}
    {i : Nat} (h : ∀ (j : Nat) (t : Ty) (u : HostType), ts[j]? = some t → hs[j]? = some u →
      u.carries t = true) : checkCarried fault i ts hs = .ok () := by
  induction ts generalizing hs i with
  | nil => rfl
  | cons t ts ih =>
    cases hs with
    | nil => rfl
    | cons u us =>
      rw [checkCarried, if_pos (h 0 t u rfl rfl)]
      exact ih fun j t' u' ht hu => h (j + 1) t' u' ht hu

theorem count_of_passingFrom {lim : RegLimits} {i f : Nat} {ts : List Ty} {locs : List RegLoc}
    (h : passingFrom lim i f ts = .ok locs) (hi : (i : Int) ≤ lim.ints)
    (hf : (f : Int) ≤ lim.floats) :
    ((i + ts.countP Ty.isInt : Nat) : Int) ≤ lim.ints ∧
      ((f + ts.countP (fun t => !t.isInt) : Nat) : Int) ≤ lim.floats := by
  induction ts generalizing i f locs with
  | nil => exact ⟨by simpa using hi, by simpa using hf⟩
  | cons t ts ih =>
    unfold passingFrom at h
    by_cases ht : t.isInt = true
    · have hc : t.regClass = .int := by rw [Ty.regClass, if_pos ht]
      simp only [hc] at h
      split at h
      · rename_i hlt
        obtain ⟨rest, hrest, -⟩ := SSA.bind_eq_ok.mp h
        obtain ⟨h1, h2⟩ := ih hrest (by omega) hf
        rw [List.countP_cons_of_pos ht, List.countP_cons_of_neg (by simp [ht])]
        exact ⟨by omega, h2⟩
      · cases h
    · have hc : t.regClass = .float := by rw [Ty.regClass, if_neg ht]
      simp only [hc] at h
      split at h
      · rename_i hlt
        obtain ⟨rest, hrest, -⟩ := SSA.bind_eq_ok.mp h
        obtain ⟨h1, h2⟩ := ih hrest hi (by omega)
        rw [List.countP_cons_of_neg ht, List.countP_cons_of_pos (by simp [ht])]
        exact ⟨h1, by omega⟩
      · cases h

theorem passes_offered [Platform] {ts : List Ty} {locs : List RegLoc}
    (h : passing (Compile.paramLimits Platform.machine) ts = .ok locs) (b : Nat → Bool) :
    Platform.passes (ts.mapIdx fun i t => offered t (b i)) = true := by
  have hm : (ts.mapIdx fun i t => offered t (b i)).map HostType.isFloat =
      ts.map fun t => !t.isInt := by
    apply List.ext_getElem?
    intro i
    simp only [List.getElem?_map, List.getElem?_mapIdx, Option.map_map]
    exact congrArg (fun g => Option.map g ts[i]?) (funext fun t => isFloat_offered t (b i))
  have hfl : (ts.mapIdx fun i t => offered t (b i)).countP HostType.isFloat =
      ts.countP fun t => !t.isInt := by
    have := congrArg (List.countP id) hm
    rwa [List.countP_map, List.countP_map] at this
  have hin : (ts.mapIdx fun i t => offered t (b i)).countP (fun t => !t.isFloat) =
      ts.countP Ty.isInt := by
    have := congrArg (List.countP fun x => !x) hm
    rw [List.countP_map, List.countP_map] at this
    refine this.trans (List.countP_congr fun t _ => ?_)
    simp
  obtain ⟨hints, hfloats⟩ := Compile.paramLimits_nonneg Platform.machine
  have hb := count_of_passingFrom h hints hfloats
  rw [Nat.zero_add, Nat.zero_add] at hb
  refine Platform.passes_registers ?_ ?_
  · rw [hin]
    exact hb.1
  · rw [hfl]
    exact hb.2

/-- a type a host function can take or return -/
def Plain (t : Ty) : Prop := t.isValid = true ∧ t.isVector = false

/-- **A call offers a type that fits and that can be carried.** -/
theorem makeFunc_offered [Platform] {entry : UInt64} {sig : Signature} {args : List Arg}
    {locs : List RegLoc} (he : entry ≠ 0) (hps : ∀ t ∈ sig.params, Plain t)
    (hrs : ∀ t ∈ sig.returns, Plain t) (hr : sig.returns.length ≤ 1)
    (hp : passing (Compile.paramLimits Platform.machine) sig.params = .ok locs) :
    makeFunc entry sig (offeredFunc sig args) = .ok () := by
  have hins : ∀ fault, checkCarried fault 0 sig.params (sig.params.mapIdx fun i t =>
      offered t ((args[i]?.map Arg.isBuffer).getD false)) = .ok () := by
    intro fault
    refine checkCarried_ok fun j t u ht hu => ?_
    rw [List.getElem?_mapIdx, ht] at hu
    cases hu
    have h := hps t (List.mem_of_getElem? ht)
    exact carries_offered h.1 h.2 _
  have houts : ∀ fault, checkCarried fault 0 sig.returns (sig.returns.map fun t =>
      offered t false) = .ok () := by
    intro fault
    refine checkCarried_ok fun j t u ht hu => ?_
    rw [List.getElem?_map, ht] at hu
    cases hu
    have h := hrs t (List.mem_of_getElem? ht)
    exact carries_offered h.1 h.2 _
  have hfit : fits sig (offeredFunc sig args) = .ok () := by
    unfold fits offeredFunc
    simp only
    rw [if_neg (by simp), if_neg (by omega), if_neg (by simp), hins]
    exact houts _
  have hpass : passable (offeredFunc sig args) = .ok () := by
    unfold passable offeredFunc
    exact if_pos (passes_offered hp fun i => (args[i]?.map Arg.isBuffer).getD false)
  unfold makeFunc
  rw [if_neg he, hfit]
  exact hpass

namespace Module

/-! ## where buffers lie -/

def placements : Nat → List (List UInt8) → List (Nat × List UInt8)
  | _, [] => []
  | start, bs :: bss => (start, bs) :: placements (start + pageBytes bs.length + pageSize) bss

def layAll (mem : Memory) (ps : List (Nat × List UInt8)) : Memory :=
  ps.foldl (fun mem p => mem.setBytes (UInt64.ofNat p.1) p.2) mem

theorem layBuffers_eq (start : Nat) (bss : List (List UInt8)) (ws : List UInt64) (mem : Memory) :
    layBuffers start (bss.map .buffer ++ ws.map .word) mem =
      (((placements start bss).map (fun p => UInt64.ofNat p.1) ++ ws).map fun x => ⟨x, 0⟩,
        (placements start bss).map (fun p => (UInt64.ofNat p.1, p.2.length)),
        layAll mem (placements start bss)) := by
  induction bss generalizing start mem with
  | nil =>
    induction ws with
    | nil => rfl
    | cons x ws ih =>
      simp only [List.map_nil, List.nil_append] at ih
      simp only [List.map_nil, List.nil_append, List.map_cons, layBuffers, ih]
      rfl
  | cons bs bss ih =>
    simp only [List.map_cons, List.cons_append, layBuffers, ih]
    rfl

@[simp] theorem length_placements (start : Nat) (bss : List (List UInt8)) :
    (placements start bss).length = bss.length := by
  induction bss generalizing start with
  | nil => rfl
  | cons bs bss ih => simp [placements, ih]

theorem getElem?_placements {start : Nat} {bss : List (List UInt8)} {i : Nat} {p : Nat × List UInt8}
    (h : (placements start bss)[i]? = some p) : bss[i]? = some p.2 := by
  induction bss generalizing start i with
  | nil => simp [placements] at h
  | cons bs bss ih =>
    cases i with
    | zero =>
      cases h
      rfl
    | succ i => exact ih h

theorem placements_concat (start : Nat) (bss : List (List UInt8)) (bs : List UInt8) :
    ∃ a, placements start (bss ++ [bs]) = placements start bss ++ [(a, bs)] := by
  induction bss generalizing start with
  | nil => exact ⟨start, rfl⟩
  | cons x bss ih =>
    obtain ⟨a, e⟩ := ih (start + pageBytes x.length + pageSize)
    exact ⟨a, congrArg (List.cons (start, x)) e⟩

theorem le_of_mem_placements {start : Nat} {bss : List (List UInt8)} {p : Nat × List UInt8}
    (h : p ∈ placements start bss) : start ≤ p.1 := by
  induction bss generalizing start with
  | nil => cases h
  | cons bs bss ih =>
    rcases List.mem_cons.mp h with rfl | h
    · exact Nat.le_refl _
    · have := ih h
      omega

theorem end_of_mem_placements {start n : Nat} {bss : List (List UInt8)}
    (hn : ∀ bs ∈ bss, bs.length ≤ n) {p : Nat × List UInt8} (h : p ∈ placements start bss) :
    p.1 + p.2.length ≤ start + bss.length * (n + 2 * pageSize) := by
  induction bss generalizing start with
  | nil => cases h
  | cons bs bss ih =>
    have hbs := hn bs List.mem_cons_self
    rw [List.length_cons, Nat.succ_mul]
    rcases List.mem_cons.mp h with rfl | h
    · show start + bs.length ≤ _
      omega
    · have hend := ih (fun bs h => hn bs (List.mem_cons_of_mem _ h)) h
      have hpage := pageBytes_le bs.length
      omega

theorem pairwise_placements (start : Nat) (bss : List (List UInt8)) :
    (placements start bss).Pairwise fun p q => p.1 + p.2.length < q.1 := by
  induction bss generalizing start with
  | nil => exact List.Pairwise.nil
  | cons bs bss ih =>
    refine List.Pairwise.cons (fun q hq => ?_) (ih _)
    have hle := le_of_mem_placements hq
    have hpage := le_pageBytes bs.length
    show start + bs.length < q.1
    unfold pageSize at hle
    omega

/-- places below `2 ^ 64` that come one after the other are apart -/
theorem apart_of_placements {p q : Nat × List UInt8} (h : p.1 + p.2.length < q.1)
    (hq : q.1 + q.2.length < 2 ^ 64) :
    Memory.Apart (UInt64.ofNat p.1) p.2.length (UInt64.ofNat q.1) q.2.length := by
  have e1 : (UInt64.ofNat p.1).toNat = p.1 := UInt64.toNat_ofNat_of_lt' (by
    show p.1 < 2 ^ 64
    omega)
  have e2 : (UInt64.ofNat q.1).toNat = q.1 := UInt64.toNat_ofNat_of_lt' (by
    show q.1 < 2 ^ 64
    omega)
  apply Memory.apart_of_le
  · rw [e1, e2]
    omega
  · rw [e2]
    omega
  · rw [e1, e2]
    omega

theorem bytes_layAll_apart {mem : Memory} {ps : List (Nat × List UInt8)} {a : UInt64} {n : Nat}
    (h : ∀ q ∈ ps, Memory.Apart (UInt64.ofNat q.1) q.2.length a n) :
    (layAll mem ps).bytes n a = mem.bytes n a := by
  induction ps generalizing mem with
  | nil => rfl
  | cons p ps ih =>
    show (layAll (mem.setBytes _ _) ps).bytes n a = _
    rw [ih fun q hq => h q (List.mem_cons_of_mem _ hq)]
    exact Memory.bytes_setBytes_apart mem (h p List.mem_cons_self)

/-- **Every buffer holds what the caller put there.** -/
theorem bytes_layAll {mem : Memory} {ps : List (Nat × List UInt8)}
    (hp : ps.Pairwise fun p q => p.1 + p.2.length < q.1)
    (hs : ∀ q ∈ ps, q.1 + q.2.length < 2 ^ 64) {p : Nat × List UInt8} (h : p ∈ ps) :
    (layAll mem ps).bytes p.2.length (UInt64.ofNat p.1) = p.2 := by
  induction ps generalizing mem with
  | nil => cases h
  | cons q ps ih =>
    obtain ⟨hq, hp⟩ := List.pairwise_cons.mp hp
    have hs' : ∀ q ∈ ps, q.1 + q.2.length < 2 ^ 64 := fun q hm => hs q (List.mem_cons_of_mem _ hm)
    rcases List.mem_cons.mp h with rfl | h
    · have hlen := hs p List.mem_cons_self
      show (layAll (mem.setBytes _ _) ps).bytes _ _ = _
      rw [bytes_layAll_apart fun r hr => (apart_of_placements (hq r hr) (hs' r hr)).symm]
      exact Memory.bytes_setBytes_self mem _ _ (by omega)
    · exact ih hp hs' h

/-! ## calling by number -/

/-- **Calling a function by its number runs its body**, in a world in which the built-in names mean
their operations. -/
theorem Holds.call [Platform] (h : Machinery) {m : Module} (ho : m.closed = false) (hs : m.Sound)
    (hb : HoldBuiltins m.imports) {id : Nat} {name : String} {f : Func} (hf : m.Holds id name f)
    (hps : ∀ t ∈ f.sig.params, Plain t) (hrs : ∀ t ∈ f.sig.returns, Plain t)
    (hr : f.sig.returns.length ≤ 1) :
    ∃ w, Natives w ∧ w.float = h.float ∧
      ∀ (bss : List (List UInt8)) (ws : List UInt64),
        m.call h id (bss.map .buffer ++ ws.map .word) =
          match f.run w h.fuel stackTop (Val.keepAll f.sig.params
              (((placements heapStart bss).map (fun p => UInt64.ofNat p.1) ++ ws).map
                fun x => ⟨x, 0⟩)) (layAll {} (placements heapStart bss)) with
          | .error e => .error (.run e)
          | .ok (rs, mem) => .ok ⟨Val.keepAll f.sig.returns rs,
              (placements heapStart bss).map fun p => mem.bytes p.2.length (UInt64.ofNat p.1)⟩ := by
  obtain ⟨⟨d, p, hd, hp, hname, hsig, ha⟩, hdef, locs, hpass⟩ := hf
  obtain ⟨w, hN, hfl, hcall⟩ := world_call h hs hb hdef
  refine ⟨w, hN, hfl, fun bss ws => ?_⟩
  have hl := lookup_of_get hd
  have haddr : m.address id = .ok p.address := by
    unfold address
    rw [ho, hl]
    simp only [hp]
    rfl
  unfold Module.call
  rw [haddr, hl]
  simp only [invoke]
  rw [hname, hsig, makeFunc_offered ha hps hrs hr hpass]
  simp only [layBuffers_eq, hcall, List.map_map]
  rfl

end Module

end TreeJit.Host
