/-
The way of a datagram into a packet (`run_receiver` in `UDPReceiver.hpp`, `hft_storage.hpp`).

The receiver has room for four packets' data, copies as much as it has got into one, and looks at
nothing but whether it is a whole number of words. `process_packet` reads the symbol before it
compares the size with the one the table wants. So the bytes that are copied and read lie inside
of the packet, and come from the datagram, exactly if the datagram is dropped for its odd size, or
has at least one word and at most the data of one packet (`contained_iff`).
-/
import NanoVault.Hft.Packets

namespace NanoVault.Hft

/-- The size of `buffer` in `run_receiver`. -/
def receiveBuffer : Nat := packetSize * 4

/-- What `recvfrom` delivers of a datagram: what does not fit into the buffer is cut off. -/
def delivered (datagram : Bytes) : Bytes := datagram.take receiveBuffer

/-- The turn of `run_receiver` for a datagram: the packet it pushes, if it pushes one. Behind the
bytes that are copied, `data` has what was on the stack. -/
def runReceiver (datagram stack : Bytes) : Except Failure (Option RawPacket) :=
  let buffer := delivered datagram
  let n := buffer.length
  if n &&& 7 ≠ 0 then return none
  else if packetSize < n then throw .outOfBounds
  else return some { data := buffer ++ (stack.take packetSize).drop n, size := n }

/-- The pointers `process_packet` gives to `read_be64`, as offsets into `data`. -/
def RawPacket.pointers (p : RawPacket) (slots : SymbolAccessArray) : List Nat :=
  0 ::
    match place (readBe64 p.data 0).toInt with
    | none => []
    | some i =>
        let entry := slots i
        if entry.symbol = -1 then []
        else if p.size ≠ entry.expectedSize then []
        else
          let ptr := 8 + 8 * entry.columnCount
          (List.range entry.columnCount).map (fun i => 8 + 8 * i) ++
            if entry.isTopOrderBook then [ptr, ptr + 8, ptr + 16, ptr + 24] else []

/-- Nothing is copied behind the data of a packet, and every word that is read from it lies inside
of the data, and inside of the datagram. -/
def Contained (slots : SymbolAccessArray) (datagram stack : Bytes) : Prop :=
  ∃ pushed, runReceiver datagram stack = .ok pushed ∧
    ∀ p, pushed = some p → ∀ ptr ∈ p.pointers slots,
      ptr + 8 ≤ packetSize ∧ ptr + 8 ≤ datagram.length

variable {slots : SymbolAccessArray} {p p' : RawPacket} {datagram stack : Bytes}

/-! ### The words that are read -/

theorem RawPacket.zero_mem_pointers (p : RawPacket) (slots : SymbolAccessArray) :
    0 ∈ p.pointers slots := List.mem_cons_self

/-- The words behind the symbol are those of a packet of the right size. -/
theorem RawPacket.mem_pointers {ptr : Nat} (hptr : ptr ∈ p.pointers slots) :
    ptr = 0 ∨ (ptr : Int) + 8 ≤ p.size := by
  rw [pointers, List.mem_cons] at hptr
  refine hptr.imp_right fun hptr => ?_
  split at hptr
  · cases hptr
  · next i _ =>
      dsimp only at hptr
      split at hptr
      · cases hptr
      · split at hptr
        · cases hptr
        · next hsize =>
            rw [not_not] at hsize
            rw [hsize, TableColumn.expectedSize_eq, TableColumn.expected]
            rw [List.mem_append] at hptr
            rcases hptr with hcolumn | htop
            · obtain ⟨j, hj, rfl⟩ := List.mem_map.mp hcolumn
              have hlt := List.mem_range.mp hj
              split <;> omega
            · split at htop
              · next hbook =>
                  simp only [List.mem_cons, List.not_mem_nil, or_false] at htop
                  rw [if_pos hbook]
                  omega
              · cases htop

theorem pushColumns_congr {data data' : Bytes} {columns : List Nat} {ptr : Nat}
    (h : ∀ j < columns.length, readBe64 data (ptr + 8 * j) = readBe64 data' (ptr + 8 * j))
    (history : Nat → ColumnRing) :
    pushColumns data columns ptr history = pushColumns data' columns ptr history := by
  induction columns generalizing ptr history with
  | nil => rfl
  | cons i columns ih =>
      have hfirst := h 0 (Nat.succ_pos _)
      rw [Nat.mul_zero, Nat.add_zero] at hfirst
      rw [pushColumns, pushColumns, hfirst]
      split
      · apply ih
        intro j hj
        have hnext := h (j + 1) (Nat.succ_lt_succ hj)
        rwa [Nat.mul_succ, Nat.add_comm (8 * j), ← Nat.add_assoc] at hnext
      · rfl

theorem pushColumns_ptr {data : Bytes} {columns : List Nat} {ptr : Nat}
    {history : Nat → ColumnRing} {r : (Nat → ColumnRing) × Nat}
    (h : pushColumns data columns ptr history = .ok r) : r.2 = ptr + 8 * columns.length := by
  induction columns generalizing ptr history with
  | nil =>
      cases h
      rfl
  | cons i columns ih =>
      rw [pushColumns] at h
      split at h
      · rw [ih h, List.length_cons]
        omega
      · cases h

/-- Nothing else of a packet is read: `process_packet` does the same with every packet of the
same size that has the same words there. -/
theorem RawPacket.process_congr (hsize : p.size = p'.size)
    (h : ∀ ptr ∈ p.pointers slots, readBe64 p.data ptr = readBe64 p'.data ptr) :
    p.process slots = p'.process slots := by
  have htick := h 0 (p.zero_mem_pointers slots)
  rw [process, process, ← htick]
  rw [pointers] at h
  split
  · rfl
  · next i hplace =>
      rw [hplace] at h
      dsimp only at h ⊢
      by_cases hsymbol : (slots i).symbol = -1
      · rw [if_pos hsymbol, if_pos hsymbol]
      · rw [if_neg hsymbol] at h
        rw [if_neg hsymbol, if_neg hsymbol, ← hsize]
        by_cases hother : p.size ≠ (slots i).expectedSize
        · rw [if_pos hother, if_pos hother]
        · rw [if_neg hother] at h
          rw [if_neg hother, if_neg hother]
          have hcolumns : pushColumns p.data (List.range (slots i).columnCount) 8
              (slots i).history = pushColumns p'.data (List.range (slots i).columnCount) 8
              (slots i).history := by
            apply pushColumns_congr
            intro j hj
            rw [List.length_range] at hj
            apply h
            refine List.mem_cons_of_mem _ (List.mem_append_left _ ?_)
            exact List.mem_map_of_mem (List.mem_range.mpr hj)
          rw [← hcolumns]
          cases hpushed : pushColumns p.data (List.range (slots i).columnCount) 8
            (slots i).history with
          | error e => rfl
          | ok pushed =>
              have hptr := pushColumns_ptr hpushed
              rw [List.length_range] at hptr
              dsimp only
              by_cases hbook : (slots i).isTopOrderBook = true
              · have htop : ∀ ptr ∈ [pushed.2, pushed.2 + 8, pushed.2 + 16, pushed.2 + 24],
                    readBe64 p.data ptr = readBe64 p'.data ptr := by
                  intro ptr hmem
                  apply h
                  refine List.mem_cons_of_mem _ (List.mem_append_right _ ?_)
                  rwa [if_pos hbook, ← hptr]
                simp only [List.forall_mem_cons] at htop
                rw [if_pos hbook, if_pos hbook, readTop, readTop, htop.1, htop.2.1, htop.2.2.1,
                  htop.2.2.2.1]
              · rw [if_neg hbook, if_neg hbook]

/-! ### Datagrams -/

theorem length_delivered (datagram : Bytes) :
    (delivered datagram).length = min receiveBuffer datagram.length := List.length_take

/-- The bytes of a datagram stay inside of the packet, and the words that are read belong to it,
exactly if it is dropped for its size, or has at least a word and no more than a packet holds. -/
theorem contained_iff (slots : SymbolAccessArray) (datagram stack : Bytes) :
    Contained slots datagram stack ↔
      datagram.length < receiveBuffer ∧ datagram.length % 8 ≠ 0 ∨
        8 ≤ datagram.length ∧ datagram.length ≤ packetSize := by
  have hmask : (delivered datagram).length &&& 7 = (delivered datagram).length % 8 :=
    Nat.and_two_pow_sub_one_eq_mod _ 3
  have hlength := length_delivered datagram
  have hbuffer : receiveBuffer = 4096 := rfl
  have hpacket : packetSize = 1024 := rfl
  rw [Contained, runReceiver, hmask]
  by_cases hodd : (delivered datagram).length % 8 ≠ 0
  · rw [if_pos hodd]
    constructor
    · intro _
      omega
    · intro _
      exact ⟨none, rfl, fun p hp => by cases hp⟩
  · rw [if_neg hodd]
    by_cases hlong : packetSize < (delivered datagram).length
    · rw [if_pos hlong]
      constructor
      · rintro ⟨pushed, hpushed, -⟩
        cases hpushed
      · intro h
        omega
    · rw [if_neg hlong]
      constructor
      · rintro ⟨pushed, hpushed, hreads⟩
        cases hpushed
        have hfirst := hreads _ rfl 0 (RawPacket.zero_mem_pointers _ _)
        omega
      · intro h
        refine ⟨_, rfl, fun p hp ptr hptr => ?_⟩
        cases hp
        have hinside := RawPacket.mem_pointers hptr
        dsimp only at hinside
        omega

/-- A datagram of one word more than the data of a packet holds. -/
theorem datagram_overruns :
    runReceiver (List.replicate 1032 0) [] = .error .outOfBounds ∧
      ¬ Contained (fun _ => {}) (List.replicate 1032 0) [] := by
  have hlength : (delivered (List.replicate 1032 0)).length = 1032 := by
    rw [length_delivered, List.length_replicate]
    rfl
  have herror : runReceiver (List.replicate 1032 0) [] = .error .outOfBounds := by
    rw [runReceiver, hlength]
    rfl
  refine ⟨herror, ?_⟩
  rintro ⟨pushed, hpushed, -⟩
  rw [herror] at hpushed
  cases hpushed

end NanoVault.Hft
