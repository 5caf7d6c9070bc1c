import Mathlib.Data.List.Nodup
import TreeJit.Proofs.Word.Memory

/-!
# Copies one after the other

A `Move` copies some bytes from one address to another, and a list of them is done in order
(`Memory.moveAll`).  If no move writes what another one reads or writes, every destination ends with
what its source had before (`bytes_moveAll`).  Moves whose ends overlap each other go by way of
places of their own: first everything is brought there, then everything is brought to where it
belongs.  So they make one simultaneous assignment, whatever the sources and destinations have in
common (`Relay.bytes_eq`), and write nothing else (`get_relay`).
-/

namespace TreeJit

/-! ## bytes and numbers -/

theorem littleEndian_ofLittleEndian (bs : List UInt8) :
    littleEndian bs.length (ofLittleEndian bs) = bs := by
  induction bs with
  | nil => rfl
  | cons b bs ih =>
    have hb := b.toNat_lt
    have hmod : (b.toNat + 256 * ofLittleEndian bs) % 256 = b.toNat := by omega
    have hdiv : (b.toNat + 256 * ofLittleEndian bs) / 256 = ofLittleEndian bs := by omega
    rw [List.length_cons, ofLittleEndian_cons, littleEndian, hmod, hdiv, ih, UInt8.ofNat_toNat]

theorem littleEndian_mod (n v : Nat) : littleEndian n (v % 256 ^ n) = littleEndian n v := by
  have h := littleEndian_ofLittleEndian (littleEndian n v)
  rwa [length_littleEndian, ofLittleEndian_littleEndian] at h

namespace Memory

theorem setBytes_append (m : Memory) (a : UInt64) (bs cs : List UInt8) :
    m.setBytes a (bs ++ cs) = (m.setBytes a bs).setBytes (a + UInt64.ofNat bs.length) cs := by
  induction bs generalizing m a with
  | nil =>
    have e : a + UInt64.ofNat 0 = a := UInt64.add_zero a
    rw [List.nil_append, List.length_nil, e]
    rfl
  | cons b bs ih =>
    have e : a + 1 + UInt64.ofNat bs.length = a + UInt64.ofNat (bs.length + 1) := by
      rw [UInt64.add_assoc, UInt64.add_comm 1, UInt64.ofNat_add]
      rfl
    rw [List.cons_append, setBytes, ih, e]
    rfl

theorem toNat_read (m : Memory) (a : UInt64) : (UInt64.ofNat (m.read 8 a)).toNat = m.read 8 a := by
  have h := m.read_lt 8 a
  rw [UInt64.toNat_ofNat', Nat.mod_eq_of_lt (by omega)]

theorem littleEndian_read (m : Memory) (a : UInt64) :
    littleEndian 8 (UInt64.ofNat (m.read 8 a)).toNat = m.bytes 8 a := by
  have h := littleEndian_ofLittleEndian (m.bytes 8 a)
  rw [length_bytes] at h
  rw [toNat_read, read, h]

/-! ## moves -/

structure Move where
  dst : UInt64
  src : UInt64
  size : Nat

def move (m : Memory) (k : Move) : Memory := m.setBytes k.dst (m.bytes k.size k.src)

def moveAll (m : Memory) (ks : List Move) : Memory := ks.foldl move m

theorem moveAll_append (m : Memory) (ks ls : List Move) :
    m.moveAll (ks ++ ls) = (m.moveAll ks).moveAll ls := List.foldl_append

theorem write_read (m : Memory) (n : Nat) (a b : UInt64) :
    m.write n b (m.read n a) = m.move ⟨b, a, n⟩ := by
  have h := littleEndian_ofLittleEndian (m.bytes n a)
  rw [length_bytes] at h
  rw [write, read, h]
  rfl

theorem write_read_pair (m : Memory) (a b : UInt64) :
    (m.write 8 b (m.read 8 a)).write 8 (b + 8) (m.read 8 (a + 8)) = m.move ⟨b, a, 16⟩ := by
  have h1 := littleEndian_ofLittleEndian (m.bytes 8 a)
  have h2 := littleEndian_ofLittleEndian (m.bytes 8 (a + 8))
  rw [length_bytes] at h1 h2
  rw [write, write, read, read, h1, h2, move, show 16 = 8 + 8 from rfl, bytes_append, setBytes_append,
    length_bytes]
  rfl

theorem writeVal_readVal (m : Memory) (a b : UInt64) :
    SSA.writeVal m .f64x2 b (SSA.readVal m .f64x2 a) = m.move ⟨b, a, 16⟩ := by
  rw [SSA.writeVal_vector _ _ _ rfl, SSA.readVal_vector _ _ rfl, toNat_read, toNat_read, write_read_pair]

theorem bytes_move_self (m : Memory) (k : Move) (h : k.size ≤ 2 ^ 64) :
    (m.move k).bytes k.size k.dst = m.bytes k.size k.src := by
  have hself := bytes_setBytes_self m k.dst (m.bytes k.size k.src) (by rwa [length_bytes])
  rwa [length_bytes] at hself

section
variable {m : Memory} {ks : List Move}

theorem get_move_out {k : Move} {x : UInt64} (h : k.size ≤ dist k.dst x) :
    (m.move k).get x = m.get x := get_setBytes_out m (by rwa [length_bytes])

theorem get_moveAll_out {x : UInt64} (h : ∀ k ∈ ks, k.size ≤ dist k.dst x) :
    (m.moveAll ks).get x = m.get x := by
  induction ks generalizing m with
  | nil => rfl
  | cons k ks ih =>
    obtain ⟨hk, hks⟩ := List.forall_mem_cons.mp h
    exact (ih hks).trans (get_move_out hk)

theorem bytes_moveAll_out {a : UInt64} {n : Nat} (h : ∀ k ∈ ks, Apart k.dst k.size a n) :
    (m.moveAll ks).bytes n a = m.bytes n a :=
  bytes_congr fun _ hi => get_moveAll_out fun k hk => (h k hk).le_dist hi

/-- **Moves that keep out of each other's way**: every destination gets what its source had. -/
theorem bytes_moveAll (hsize : ∀ k ∈ ks, k.size ≤ 2 ^ 64)
    (hdst : ks.Pairwise fun j k => Apart j.dst j.size k.dst k.size)
    (hsrc : ∀ j ∈ ks, ∀ k ∈ ks, Apart j.dst j.size k.src k.size) :
    ∀ k ∈ ks, (m.moveAll ks).bytes k.size k.dst = m.bytes k.size k.src := by
  induction ks generalizing m with
  | nil => exact nofun
  | cons j ks ih =>
    obtain ⟨hj, hks⟩ := List.pairwise_cons.mp hdst
    obtain ⟨hsize0, hsize⟩ := List.forall_mem_cons.mp hsize
    obtain ⟨hsrc0, hsrc⟩ := List.forall_mem_cons.mp hsrc
    have hrest := ih (m := m.move j) hsize hks fun i hi k hk => hsrc i hi k (List.mem_cons_of_mem _ hk)
    intro k hk
    rcases List.mem_cons.mp hk with rfl | hk
    · -- the first destination is not written again
      exact (bytes_moveAll_out fun i hi => (hj i hi).symm).trans (bytes_move_self m k hsize0)
    · -- the first move writes none of the other sources
      refine (hrest k hk).trans (bytes_congr fun i hi => get_move_out ?_)
      exact (hsrc0 k (List.mem_cons_of_mem _ hk)).le_dist hi

end

/-! ## by way of other places -/

/-- numbered places: where things are, where they go, and where they are kept in between -/
structure Relay (n : Nat) (src via dst : Nat → UInt64) (size : Nat → Nat) : Prop where
  size_le : ∀ i < n, size i ≤ 2 ^ 64
  vias : ∀ i j, i < j → j < n → Apart (via i) (size i) (via j) (size j)
  dsts : ∀ i j, i < j → j < n → Apart (dst i) (size i) (dst j) (size j)
  via_src : ∀ i < n, ∀ j < n, Apart (via i) (size i) (src j) (size j)
  dst_via : ∀ i < n, ∀ j < n, Apart (dst i) (size i) (via j) (size j)

/-- the moves of a relay: everything is brought to the places in between, and from there to where it
belongs -/
def relay (n : Nat) (src via dst : Nat → UInt64) (size : Nat → Nat) : List Move :=
  ((List.range n).map fun i => ⟨via i, src i, size i⟩) ++
    (List.range n).map fun i => ⟨dst i, via i, size i⟩

section
variable {n : Nat} {src via dst : Nat → UInt64} {size : Nat → Nat}

theorem bytes_moveAll_range {m : Memory} {source goal : Nat → UInt64}
    (hsize : ∀ i < n, size i ≤ 2 ^ 64)
    (hgoal : ∀ i j, i < j → j < n → Apart (goal i) (size i) (goal j) (size j))
    (hsource : ∀ i < n, ∀ j < n, Apart (goal i) (size i) (source j) (size j)) {i : Nat} (hi : i < n) :
    (m.moveAll ((List.range n).map fun i => ⟨goal i, source i, size i⟩)).bytes (size i) (goal i) =
      m.bytes (size i) (source i) := by
  have hmem : Move.mk (goal i) (source i) (size i) ∈
      (List.range n).map fun i => ⟨goal i, source i, size i⟩ :=
    List.mem_map_of_mem (List.mem_range.mpr hi)
  refine bytes_moveAll ?_ ?_ ?_ _ hmem
  · intro k hk
    obtain ⟨i, hi, rfl⟩ := List.mem_map.mp hk
    exact hsize i (List.mem_range.mp hi)
  · rw [List.pairwise_map]
    refine List.Pairwise.imp_of_mem (fun {i j} _ hj hlt => ?_) List.pairwise_lt_range
    exact hgoal i j hlt (List.mem_range.mp hj)
  · intro j hj k hk
    obtain ⟨a, ha, rfl⟩ := List.mem_map.mp hj
    obtain ⟨b, hb, rfl⟩ := List.mem_map.mp hk
    exact hsource a (List.mem_range.mp ha) b (List.mem_range.mp hb)

/-- **A relay is a simultaneous assignment**: every destination gets what its source had before. -/
theorem Relay.bytes_eq (h : Relay n src via dst size) (m : Memory) {i : Nat} (hi : i < n) :
    (m.moveAll (relay n src via dst size)).bytes (size i) (dst i) = m.bytes (size i) (src i) := by
  rw [relay, moveAll_append, bytes_moveAll_range h.size_le h.dsts h.dst_via hi]
  exact bytes_moveAll_range h.size_le h.vias h.via_src hi

/-- a relay writes its destinations and the places in between -/
theorem get_relay {m : Memory} {x : UInt64} (hvia : ∀ i < n, size i ≤ dist (via i) x)
    (hdst : ∀ i < n, size i ≤ dist (dst i) x) :
    (m.moveAll (relay n src via dst size)).get x = m.get x := by
  refine get_moveAll_out fun k hk => ?_
  rcases List.mem_append.mp hk with hk | hk <;> obtain ⟨i, hi, rfl⟩ := List.mem_map.mp hk
  · exact hvia i (List.mem_range.mp hi)
  · exact hdst i (List.mem_range.mp hi)

end

end Memory

end TreeJit
