import RdsProv.Base
import Mathlib.Algebra.Order.BigOperators.Group.List
import Mathlib.Data.List.Basic

/-!
# Scatter lists

The provider moves bytes through arrays of `struct iovec`. Three routines do
the work: `rds_iov_slice` cuts a window out of a scatter list, and
`ofi_copy_to_iov` / `ofi_copy_from_iov` copy between a contiguous buffer and a
scatter list.

What a scatter list *means* is the sequence of byte addresses it enumerates,
`iovAddrs`. In those terms the three routines are list operations: slicing is
`drop` then `take` (`iovAddrs_rdsIovSlice`), copying out pairs the addresses
with the bytes (`cellsOf_ofiCopyToIov`), and copying in reads memory at the
addresses (`ofiCopyFromIov_eq`). Empty entries contribute nothing to the
sequence, so they need no separate treatment.
-/

/-! ## The routines -/

/-- `ofi_total_iov_len`. -/
def ofiTotalIovLen (iov : List Iovec) : ℕ := (iov.map Iovec.len).sum

/-- The loop of `rds_iov_slice`. `pos` is the number of source bytes before the
list, `dn` the number of entries already produced; the result is what the
remaining iterations add, entries and bytes. -/
def rdsIovSliceLoop : List Iovec → (pos off len dn : ℕ) → List Iovec × ℕ
  | [], _, _, _, _ => ([], 0)
  | v :: src, pos, off, len, dn =>
    if len = 0 ∨ rdsIovLimit ≤ dn then ([], 0)
    else if pos + v.len ≤ off then rdsIovSliceLoop src (pos + v.len) off len dn
    else
      let s := if pos < off then off - pos else 0
      let take := min (v.len - s) len
      let rest := rdsIovSliceLoop src (pos + v.len) off (len - take) (dn + 1)
      (⟨v.base + s, take⟩ :: rest.1, take + rest.2)

/-- `rds_iov_slice`: the window `[off, off + len)` of a scatter list, in at most
`RDS_IOV_LIMIT` entries, with the number of bytes it covers. -/
def rdsIovSlice (src : List Iovec) (off len : ℕ) : List Iovec × ℕ :=
  rdsIovSliceLoop src 0 off len 0

/-- `ofi_copy_iov_buf` in the direction from the buffer to the list: the stores
it makes and the number of bytes copied. -/
def ofiCopyIovBuf : List Iovec → (iovOffset : ℕ) → (buf : List UInt8) → List Write × ℕ
  | [], _, _ => ([], 0)
  | v :: iov, off, buf =>
    if buf = [] then ([], 0)
    else if v.len < off then ofiCopyIovBuf iov (off - v.len) buf
    else
      let len := min (v.len - off) buf.length
      let rest := ofiCopyIovBuf iov 0 (buf.drop len)
      if len = 0 then rest
      else (⟨v.base + off, buf.take len⟩ :: rest.1, len + rest.2)

/-- `ofi_copy_to_iov`, with its short cut for a single entry. -/
def ofiCopyToIov (iov : List Iovec) (iovOffset : ℕ) (buf : List UInt8) :
    List Write × ℕ :=
  match iov with
  | [v] =>
    let size := if v.len < iovOffset then 0 else min buf.length (v.len - iovOffset)
    ([⟨v.base + iovOffset, buf.take size⟩], size)
  | iov => ofiCopyIovBuf iov iovOffset buf

/-- The `n` bytes of memory at `a`. -/
def readMem (mem : ℕ → UInt8) (a n : ℕ) : List UInt8 := (List.range' a n).map mem

/-- `ofi_copy_iov_buf` in the direction from the list to the buffer: the bytes
it stores. -/
def ofiCopyBufIov (mem : ℕ → UInt8) : (bufsize : ℕ) → List Iovec →
    (iovOffset : ℕ) → List UInt8
  | _, [], _ => []
  | bufsize, v :: iov, off =>
    if bufsize = 0 then []
    else if v.len < off then ofiCopyBufIov mem bufsize iov (off - v.len)
    else
      let len := min (v.len - off) bufsize
      readMem mem (v.base + off) len ++ ofiCopyBufIov mem (bufsize - len) iov 0

/-- `ofi_copy_from_iov`, with its short cut for a single entry. -/
def ofiCopyFromIov (mem : ℕ → UInt8) (bufsize : ℕ) (iov : List Iovec)
    (iovOffset : ℕ) : List UInt8 :=
  match iov with
  | [v] => readMem mem (v.base + iovOffset)
      (if v.len < iovOffset then 0 else min bufsize (v.len - iovOffset))
  | iov => ofiCopyBufIov mem bufsize iov iovOffset

/-- What `sendmsg` gathers from a scatter list. -/
def gather (mem : ℕ → UInt8) (iov : List Iovec) : List UInt8 :=
  iov.flatMap (fun v => readMem mem v.base v.len)

/-! ## The addresses a list enumerates -/

/-- The byte addresses of a scatter list, in order. -/
def iovAddrs (iov : List Iovec) : List ℕ :=
  iov.flatMap (fun v => List.range' v.base v.len)

/-- The bytes a sequence of stores leaves, one address at a time. -/
def cellsOf (ws : List Write) : List (ℕ × UInt8) :=
  ws.flatMap (fun w => (List.range' w.addr w.bytes.length).zip w.bytes)

@[simp] theorem iovAddrs_nil : iovAddrs [] = [] := rfl

@[simp] theorem iovAddrs_cons (v : Iovec) (iov : List Iovec) :
    iovAddrs (v :: iov) = List.range' v.base v.len ++ iovAddrs iov := rfl

@[simp] theorem cellsOf_cons (w : Write) (ws : List Write) :
    cellsOf (w :: ws) = (List.range' w.addr w.bytes.length).zip w.bytes ++ cellsOf ws :=
  rfl

@[simp] theorem ofiTotalIovLen_nil : ofiTotalIovLen [] = 0 := rfl

@[simp] theorem ofiTotalIovLen_cons (v : Iovec) (iov : List Iovec) :
    ofiTotalIovLen (v :: iov) = v.len + ofiTotalIovLen iov := rfl

theorem len_le_ofiTotalIovLen {v : Iovec} {iov : List Iovec} (h : v ∈ iov) :
    v.len ≤ ofiTotalIovLen iov := List.le_sum_of_mem (List.mem_map_of_mem h)

/-- A scatter list enumerates as many addresses as its length says. -/
@[simp] theorem length_iovAddrs (iov : List Iovec) :
    (iovAddrs iov).length = ofiTotalIovLen iov := by
  induction iov with
  | nil => rfl
  | cons v iov ih =>
    rw [iovAddrs_cons, List.length_append, List.length_range', ih, ofiTotalIovLen_cons]

@[simp] theorem length_readMem (mem : ℕ → UInt8) (a n : ℕ) :
    (readMem mem a n).length = n := by
  rw [readMem, List.length_map, List.length_range']

/-- Gathering reads memory at the addresses of the list. -/
theorem gather_eq (mem : ℕ → UInt8) (iov : List Iovec) :
    gather mem iov = (iovAddrs iov).map mem := by
  induction iov with
  | nil => rfl
  | cons v iov ih =>
    rw [iovAddrs_cons, List.map_append, ← ih]
    rfl

@[simp] theorem length_gather (mem : ℕ → UInt8) (iov : List Iovec) :
    (gather mem iov).length = ofiTotalIovLen iov := by
  rw [gather_eq, List.length_map, length_iovAddrs]

/-! ## Slicing -/

/-- A window of a run of addresses is a run of addresses. -/
theorem range'_window {a n s t : ℕ} (h : s + t ≤ n) :
    List.range' (a + s) t = ((List.range' a n).drop s).take t := by
  obtain ⟨m, rfl⟩ := Nat.exists_eq_add_of_le h
  have hsplit : List.range' a (s + t + m)
      = List.range' a s ++ (List.range' (a + s) t ++ List.range' (a + s + t) m) := by
    rw [List.range'_append_1, List.range'_append_1, Nat.add_assoc]
  rw [hsplit, List.drop_left' List.length_range', List.take_left' List.length_range']

/-- Dropping past the first entry of a list is dropping from the rest. -/
theorem drop_iovAddrs_cons_of_le (v : Iovec) (src : List Iovec) {n : ℕ}
    (h : v.len ≤ n) :
    (iovAddrs (v :: src)).drop n = (iovAddrs src).drop (n - v.len) := by
  rw [iovAddrs_cons, List.drop_append, List.length_range',
    List.drop_of_length_le (by rw [List.length_range']; exact h), List.nil_append]

/-- Dropping inside the first entry leaves the rest whole. -/
theorem drop_iovAddrs_cons_of_ge (v : Iovec) (src : List Iovec) {n : ℕ}
    (h : n ≤ v.len) :
    (iovAddrs (v :: src)).drop n = (List.range' v.base v.len).drop n ++ iovAddrs src := by
  rw [iovAddrs_cons, List.drop_append_of_le_length (by rw [List.length_range']; exact h)]

/-- What one iteration of the loop does, with the start of the piece written
as a truncated difference. -/
theorem rdsIovSliceLoop_cons (v : Iovec) (src : List Iovec) (pos off len dn : ℕ) :
    rdsIovSliceLoop (v :: src) pos off len dn
      = if len = 0 ∨ rdsIovLimit ≤ dn then ([], 0)
        else if pos + v.len ≤ off then rdsIovSliceLoop src (pos + v.len) off len dn
        else
          let take := min (v.len - (off - pos)) len
          let rest := rdsIovSliceLoop src (pos + v.len) off (len - take) (dn + 1)
          (⟨v.base + (off - pos), take⟩ :: rest.1, take + rest.2) := by
  rw [rdsIovSliceLoop]
  have hs : (if pos < off then off - pos else 0) = off - pos := by
    split
    · rfl
    · omega
  rw [hs]

/-- A loop that has nothing left to take produces nothing. -/
theorem rdsIovSliceLoop_zero (src : List Iovec) (pos off dn : ℕ) :
    rdsIovSliceLoop src pos off 0 dn = ([], 0) := by
  cases src with
  | nil => rfl
  | cons v src => rw [rdsIovSliceLoop, if_pos (Or.inl rfl)]

/-- **The loop enumerates a window of the source addresses**, of exactly the
length it reports. -/
theorem iovAddrs_rdsIovSliceLoop (src : List Iovec) (pos off len dn : ℕ) :
    iovAddrs (rdsIovSliceLoop src pos off len dn).1
      = ((iovAddrs src).drop (off - pos)).take
          (rdsIovSliceLoop src pos off len dn).2 := by
  induction src generalizing pos len dn with
  | nil => simp [rdsIovSliceLoop]
  | cons v src ih =>
    rw [rdsIovSliceLoop_cons]
    split
    · rw [iovAddrs_nil, List.take_zero]
    split
    · rename_i hskip
      rw [ih, drop_iovAddrs_cons_of_le v src (by omega), Nat.sub_sub]
    · rename_i hstop hskip
      have hs : off - pos ≤ v.len := by omega
      have hrest : off - (pos + v.len) = 0 := by omega
      have hwin : ∀ t, off - pos + t ≤ v.len → List.range' (v.base + (off - pos)) t
          = ((List.range' v.base v.len).drop (off - pos)).take t :=
        fun t ht => range'_window ht
      have hlen : ((List.range' v.base v.len).drop (off - pos)).length
          = v.len - (off - pos) := by
        rw [List.length_drop, List.length_range']
      dsimp only
      rw [iovAddrs_cons, ih, hrest, List.drop_zero, drop_iovAddrs_cons_of_ge v src hs]
      dsimp only
      rcases Nat.le_total (v.len - (off - pos)) len with hle | hle
      · -- the whole remainder of the entry is taken
        rw [Nat.min_eq_left hle, hwin _ (by omega), List.take_of_length_le hlen.le]
        exact (List.take_length_add_append _).symm.trans (by rw [hlen])
      · -- the window ends inside the entry
        rw [Nat.min_eq_right hle, Nat.sub_self, rdsIovSliceLoop_zero,
          List.take_zero, List.append_nil, Nat.add_zero, hwin _ (by omega),
          List.take_append_of_le_length (by rw [hlen]; exact hle)]

/-- The loop takes no more than it was asked for. -/
theorem rdsIovSliceLoop_le_len (src : List Iovec) (pos off len dn : ℕ) :
    (rdsIovSliceLoop src pos off len dn).2 ≤ len := by
  induction src generalizing pos len dn with
  | nil => exact Nat.zero_le _
  | cons v src ih =>
    rw [rdsIovSliceLoop_cons]
    split
    · exact Nat.zero_le _
    split
    · exact ih _ _ _
    · have := ih (pos + v.len) (len - min (v.len - (off - pos)) len) (dn + 1)
      dsimp only
      omega

/-- **With room for every entry the window is complete**: it stops only at the
end of the source. -/
theorem rdsIovSliceLoop_snd (src : List Iovec) (pos off len dn : ℕ)
    (hroom : dn + src.length ≤ rdsIovLimit) :
    (rdsIovSliceLoop src pos off len dn).2
      = min len (pos + ofiTotalIovLen src - max pos off) := by
  induction src generalizing pos len dn with
  | nil =>
    rw [rdsIovSliceLoop, ofiTotalIovLen_nil]
    omega
  | cons v src ih =>
    rw [List.length_cons] at hroom
    rw [rdsIovSliceLoop_cons, ofiTotalIovLen_cons]
    split
    · rename_i hstop
      show 0 = _
      omega
    split
    · rw [ih _ _ _ (by omega)]
      omega
    · dsimp only
      rw [ih _ _ _ (by omega)]
      omega

/-- **`rds_iov_slice` is the list slice**: the addresses it enumerates are the
window of the source addresses that starts at `off` and has the reported
length. -/
theorem iovAddrs_rdsIovSlice (src : List Iovec) (off len : ℕ) :
    iovAddrs (rdsIovSlice src off len).1
      = ((iovAddrs src).drop off).take (rdsIovSlice src off len).2 :=
  iovAddrs_rdsIovSliceLoop src 0 off len 0

/-- A source of at most `RDS_IOV_LIMIT` entries is sliced completely. -/
theorem rdsIovSlice_snd (src : List Iovec) (off len : ℕ)
    (hroom : src.length ≤ rdsIovLimit) :
    (rdsIovSlice src off len).2 = min len (ofiTotalIovLen src - off) := by
  rw [rdsIovSlice, rdsIovSliceLoop_snd _ _ _ _ _ (by omega), Nat.zero_add, Nat.zero_max]

/-- The loop stops at `RDS_IOV_LIMIT` entries. -/
theorem length_rdsIovSliceLoop (src : List Iovec) (pos off len dn : ℕ) (hdn : dn ≤ rdsIovLimit) :
    dn + (rdsIovSliceLoop src pos off len dn).1.length ≤ rdsIovLimit := by
  induction src generalizing pos len dn with
  | nil => simpa [rdsIovSliceLoop] using hdn
  | cons v src ih =>
    rw [rdsIovSliceLoop_cons]
    split
    · simpa using hdn
    split
    · exact ih _ _ _ hdn
    · rename_i hstop _
      have h := ih (pos + v.len) (len - min (v.len - (off - pos)) len) (dn + 1) (by omega)
      simp only [List.length_cons]
      omega

/-- A slice has at most `RDS_IOV_LIMIT` entries. -/
theorem length_rdsIovSlice (src : List Iovec) (off len : ℕ) :
    (rdsIovSlice src off len).1.length ≤ rdsIovLimit := by
  have h := length_rdsIovSliceLoop src 0 off len 0 (by decide)
  rwa [Nat.zero_add] at h

/-- The loop reports the bytes of the entries it produced. -/
theorem ofiTotalIovLen_rdsIovSliceLoop (src : List Iovec) (pos off len dn : ℕ) :
    ofiTotalIovLen (rdsIovSliceLoop src pos off len dn).1
      = (rdsIovSliceLoop src pos off len dn).2 := by
  induction src generalizing pos len dn with
  | nil => rfl
  | cons v src ih =>
    rw [rdsIovSliceLoop_cons]
    split
    · rfl
    split
    · exact ih _ _ _
    · simp [ih]

theorem ofiTotalIovLen_rdsIovSlice (src : List Iovec) (off len : ℕ) :
    ofiTotalIovLen (rdsIovSlice src off len).1 = (rdsIovSlice src off len).2 :=
  ofiTotalIovLen_rdsIovSliceLoop src 0 off len 0

/-- **A window that is not empty is not mapped to nothing**: the first entry that
reaches into it contributes a byte. -/
theorem rdsIovSliceLoop_pos (src : List Iovec) (pos off len dn : ℕ) (hlen : 0 < len)
    (hdn : dn < rdsIovLimit) (hpos : pos ≤ off) (hoff : off < pos + ofiTotalIovLen src) :
    0 < (rdsIovSliceLoop src pos off len dn).2 := by
  induction src generalizing pos with
  | nil =>
    rw [ofiTotalIovLen_nil] at hoff
    omega
  | cons v src ih =>
    rw [ofiTotalIovLen_cons] at hoff
    rw [rdsIovSliceLoop_cons, if_neg (by omega)]
    split
    · rename_i hskip
      exact ih _ hskip (by omega)
    · dsimp only
      omega

theorem rdsIovSlice_pos (src : List Iovec) {off len : ℕ} (hlen : 0 < len)
    (hoff : off < ofiTotalIovLen src) : 0 < (rdsIovSlice src off len).2 :=
  rdsIovSliceLoop_pos src 0 off len 0 hlen (by decide) (Nat.zero_le _) (by omega)

/-- A slice covers no more than was asked for. -/
theorem rdsIovSlice_le_len (src : List Iovec) (off len : ℕ) : (rdsIovSlice src off len).2 ≤ len :=
  rdsIovSliceLoop_le_len src 0 off len 0

/-- A slice stays within the source. -/
theorem rdsIovSlice_le_total (src : List Iovec) (off len : ℕ) :
    (rdsIovSlice src off len).2 ≤ ofiTotalIovLen src - off := by
  have h := congrArg List.length (iovAddrs_rdsIovSlice src off len)
  rw [length_iovAddrs, ofiTotalIovLen_rdsIovSlice, List.length_take, List.length_drop,
    length_iovAddrs] at h
  omega

/-! ## Slicing in `size_t`

The routine computes with `size_t`, where sums and differences wrap. As long as the total
length of the source is a `size_t`, nothing wraps, for any offset and any length. -/

/-- What `size_t` keeps of a number. -/
def sizeT (n : ℕ) : ℕ := n % 2 ^ 64

theorem sizeT_of_lt {n : ℕ} (h : n < 2 ^ 64) : sizeT n = n := Nat.mod_eq_of_lt h

/-- The loop of `rds_iov_slice` with its locals `pos`, `dn` and `got` as `size_t`. -/
def rdsIovSliceSizeT : List Iovec → (pos off len dn got : ℕ) → List Iovec × ℕ
  | [], _, _, _, _, got => ([], got)
  | v :: src, pos, off, len, dn, got =>
    if len = 0 ∨ rdsIovLimit ≤ dn then ([], got)
    else if sizeT (pos + v.len) ≤ off then
      rdsIovSliceSizeT src (sizeT (pos + v.len)) off len dn got
    else
      let s := if pos < off then off - pos else 0
      let take := min (sizeT (v.len + 2 ^ 64 - s)) len
      let rest :=
        rdsIovSliceSizeT src (sizeT (pos + v.len)) off (len - take) (dn + 1) (sizeT (got + take))
      (⟨v.base + s, take⟩ :: rest.1, rest.2)

/-- Without overflow the two loops agree. What was taken so far came from before `pos`, so
the count of bytes does not overflow either. -/
theorem rdsIovSliceSizeT_eq (src : List Iovec) (pos off len dn got : ℕ)
    (htotal : pos + ofiTotalIovLen src < 2 ^ 64) (hgot : got ≤ pos) :
    rdsIovSliceSizeT src pos off len dn got
      = ((rdsIovSliceLoop src pos off len dn).1,
        got + (rdsIovSliceLoop src pos off len dn).2) := by
  induction src generalizing pos len dn got with
  | nil => rfl
  | cons v src ih =>
    rw [ofiTotalIovLen_cons] at htotal
    have hpos : sizeT (pos + v.len) = pos + v.len := sizeT_of_lt (by omega)
    rw [rdsIovSliceSizeT, rdsIovSliceLoop, hpos]
    split
    · rfl
    · split
      · exact ih _ _ _ _ (by omega) (by omega)
      · rename_i hreach
        have hs : (if pos < off then off - pos else 0) ≤ v.len := by
          split <;> omega
        have htake : sizeT (v.len + 2 ^ 64 - if pos < off then off - pos else 0)
            = v.len - if pos < off then off - pos else 0 := by
          unfold sizeT
          omega
        have hle : min (v.len - if pos < off then off - pos else 0) len ≤ v.len :=
          (Nat.min_le_left _ _).trans (Nat.sub_le _ _)
        dsimp only
        rw [htake]
        generalize min (v.len - if pos < off then off - pos else 0) len = take at hle ⊢
        rw [sizeT_of_lt (show got + take < 2 ^ 64 by omega),
          ih _ _ _ _ (by omega) (by omega), Nat.add_assoc]

/-- **Slicing is the list slice**: for a source of any number of entries whose total is a
`size_t`, the entries produced enumerate the bytes `[off, off + got)` of the source and
nothing else. They are as many as a vector may have, they cover as much as was asked for
and is there unless the vector is full, and they never cover nothing without need. -/
theorem rdsIovSliceSizeT_spec (src : List Iovec) (off len : ℕ)
    (htotal : ofiTotalIovLen src < 2 ^ 64) :
    ∃ dst got, rdsIovSliceSizeT src 0 off len 0 0 = (dst, got)
      ∧ iovAddrs dst = ((iovAddrs src).drop off).take got
      ∧ (∀ mem, gather mem dst = ((gather mem src).drop off).take got)
      ∧ ofiTotalIovLen dst = got
      ∧ dst.length ≤ rdsIovLimit
      ∧ got ≤ len
      ∧ got ≤ ofiTotalIovLen src - off
      ∧ (src.length ≤ rdsIovLimit → got = min len (ofiTotalIovLen src - off))
      ∧ (0 < len → off < ofiTotalIovLen src → 0 < got) := by
  have haddrs := iovAddrs_rdsIovSlice src off len
  have heq : rdsIovSliceSizeT src 0 off len 0 0
      = ((rdsIovSlice src off len).1, (rdsIovSlice src off len).2) := by
    rw [rdsIovSliceSizeT_eq src 0 off len 0 0 (by omega) le_rfl, Nat.zero_add]
    rfl
  refine ⟨_, _, heq, haddrs, fun mem => ?_, ofiTotalIovLen_rdsIovSlice src off len,
    length_rdsIovSlice src off len, rdsIovSlice_le_len src off len,
    rdsIovSlice_le_total src off len, rdsIovSlice_snd src off len,
    rdsIovSlice_pos src⟩
  -- what lies at the addresses, for any memory
  calc gather mem (rdsIovSlice src off len).1
      = (iovAddrs (rdsIovSlice src off len).1).map mem := gather_eq mem _
    _ = (((iovAddrs src).drop off).take (rdsIovSlice src off len).2).map mem := by rw [haddrs]
    _ = ((gather mem src).drop off).take (rdsIovSlice src off len).2 := by
      rw [gather_eq mem src, List.map_take, List.map_drop]

/-- A window that starts in one entry and ends in another, past an empty one. -/
theorem rdsIovSliceSizeT_spec_across :
    rdsIovSliceSizeT [⟨0, 4⟩, ⟨9, 0⟩, ⟨16, 8⟩] 0 3 5 0 0 = ([⟨3, 1⟩, ⟨9, 0⟩, ⟨16, 4⟩], 5)
      ∧ ∃ dst got, rdsIovSliceSizeT [⟨0, 4⟩, ⟨9, 0⟩, ⟨16, 8⟩] 0 3 5 0 0 = (dst, got)
        ∧ iovAddrs dst = [3, 16, 17, 18, 19] ∧ got = 5 := by
  obtain ⟨dst, got, heq, haddrs, -, -, -, -, -, hmin, -⟩ :=
    rdsIovSliceSizeT_spec [⟨0, 4⟩, ⟨9, 0⟩, ⟨16, 8⟩] 3 5 (by decide)
  have hgot : got = 5 := hmin (by decide)
  subst hgot
  exact ⟨by decide, dst, 5, heq, haddrs.trans (by decide), rfl⟩

/-! ## Copying -/

/-- Pairing a run of addresses with a buffer that outlasts it. -/
theorem zip_append_take {α β : Type} (l₁ l₂ : List α) (r : List β)
    (h : l₁.length ≤ r.length) :
    (l₁ ++ l₂).zip r = l₁.zip (r.take l₁.length) ++ l₂.zip (r.drop l₁.length) := by
  conv_lhs => rw [← List.take_append_drop l₁.length r]
  rw [List.zip_append (by rw [List.length_take, Nat.min_eq_left h])]

/-- **Copying a buffer out pairs the addresses of the list with its bytes**, and
reports how many there were. -/
theorem cellsOf_ofiCopyIovBuf (iov : List Iovec) (buf : List UInt8) :
    cellsOf (ofiCopyIovBuf iov 0 buf).1 = (iovAddrs iov).zip buf
      ∧ (ofiCopyIovBuf iov 0 buf).2 = min buf.length (ofiTotalIovLen iov) := by
  induction iov generalizing buf with
  | nil => exact ⟨rfl, (Nat.min_zero _).symm⟩
  | cons v iov ih =>
    rw [ofiCopyIovBuf]
    by_cases hbuf : buf = []
    · rw [if_pos hbuf, hbuf]
      exact ⟨(List.zip_nil_right).symm, by rw [List.length_nil, Nat.zero_min]⟩
    rw [if_neg hbuf, if_neg (Nat.not_lt_zero _), Nat.sub_zero]
    obtain ⟨hcells, hlen⟩ := ih (buf.drop (min v.len buf.length))
    rw [iovAddrs_cons, ofiTotalIovLen_cons]
    have hhead : (List.range' v.base (min v.len buf.length)).zip
          (buf.take (min v.len buf.length))
        ++ (iovAddrs iov).zip (buf.drop (min v.len buf.length))
        = (List.range' v.base v.len ++ iovAddrs iov).zip buf := by
      rcases Nat.le_total v.len buf.length with hle | hle
      · rw [Nat.min_eq_left hle,
          zip_append_take _ _ _ (by rw [List.length_range']; exact hle),
          List.length_range']
      · rw [Nat.min_eq_right hle, List.take_length, List.drop_length, List.zip_nil_right,
          List.append_nil]
        have hcut : List.range' v.base v.len
            = List.range' v.base buf.length
              ++ List.range' (v.base + buf.length) (v.len - buf.length) := by
          rw [List.range'_append_1, Nat.add_sub_cancel' hle]
        rw [hcut, List.append_assoc,
          zip_append_take _ _ _ (by rw [List.length_range']), List.length_range',
          List.take_length, List.drop_length, List.zip_nil_right, List.append_nil]
    dsimp only
    split
    · rename_i hzero
      rw [hzero] at hcells hlen hhead
      rw [hzero]
      refine ⟨?_, ?_⟩
      · rw [hcells, ← hhead]
        rfl
      · rw [hlen, List.drop_zero]
        omega
    · refine ⟨?_, ?_⟩
      · rw [cellsOf_cons, hcells, ← hhead, List.length_take,
          Nat.min_eq_left (Nat.min_le_right _ _), Nat.add_zero]
      · rw [hlen, List.length_drop]
        omega

/-- **`ofi_copy_to_iov` pairs the addresses of the list with the bytes of the
buffer**; the short cut for one entry changes nothing. -/
theorem cellsOf_ofiCopyToIov (iov : List Iovec) (buf : List UInt8) :
    cellsOf (ofiCopyToIov iov 0 buf).1 = (iovAddrs iov).zip buf
      ∧ (ofiCopyToIov iov 0 buf).2 = min buf.length (ofiTotalIovLen iov) := by
  match iov with
  | [] => exact cellsOf_ofiCopyIovBuf [] buf
  | v :: w :: iov => exact cellsOf_ofiCopyIovBuf (v :: w :: iov) buf
  | [v] =>
    refine ⟨?_, ?_⟩
    · obtain ⟨hcells, -⟩ := cellsOf_ofiCopyIovBuf [v] buf
      rw [← hcells]
      simp only [ofiCopyToIov, ofiCopyIovBuf, Nat.not_lt_zero, if_false, Nat.sub_zero]
      by_cases hbuf : buf = []
      · subst hbuf
        simp [cellsOf]
      rw [if_neg hbuf, Nat.min_comm]
      split
      · rename_i hzero
        simp [cellsOf, hzero]
      · rfl
    · simp [ofiCopyToIov, ofiTotalIovLen]

/-- **`ofi_copy_from_iov` with room for the whole list gathers it.** -/
theorem ofiCopyBufIov_eq (mem : ℕ → UInt8) (bufsize : ℕ) (iov : List Iovec)
    (h : ofiTotalIovLen iov ≤ bufsize) :
    ofiCopyBufIov mem bufsize iov 0 = gather mem iov := by
  induction iov generalizing bufsize with
  | nil => rfl
  | cons v iov ih =>
    rw [ofiTotalIovLen_cons] at h
    rw [ofiCopyBufIov, if_neg (Nat.not_lt_zero _), Nat.sub_zero, Nat.add_zero,
      Nat.min_eq_left (by omega)]
    dsimp only
    rw [ih (bufsize - v.len) (by omega)]
    have hcons : gather mem (v :: iov) = readMem mem v.base v.len ++ gather mem iov := rfl
    split
    · -- a buffer of no bytes only fits a list of no bytes
      have hnil : gather mem (v :: iov) = [] :=
        List.eq_nil_of_length_eq_zero (by rw [length_gather, ofiTotalIovLen_cons]; omega)
      exact hnil.symm
    · exact hcons.symm

theorem ofiCopyFromIov_eq (mem : ℕ → UInt8) (iov : List Iovec) :
    ofiCopyFromIov mem (ofiTotalIovLen iov) iov 0 = gather mem iov := by
  match iov with
  | [] => exact ofiCopyBufIov_eq mem _ [] (Nat.le_refl _)
  | v :: w :: iov => exact ofiCopyBufIov_eq mem _ (v :: w :: iov) (Nat.le_refl _)
  | [v] => simp [ofiCopyFromIov, ofiTotalIovLen, gather]
