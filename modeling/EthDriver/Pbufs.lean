import Mathlib.Data.List.Basic

namespace EthDriver.Pbufs

/-- A `pbuf` chain: the payloads of its segments in order. As `lwip/pbuf.h`
requires of a chain that holds one packet, `tot_len` is the sum of the segment
lengths, and it is a 16-bit field. -/
structure Pbuf where
  segs : List (List UInt8)
  totLen : ℕ
  totLen_eq : totLen = segs.flatten.length
  totLen_lt : totLen < 65536
  deriving DecidableEq

def Pbuf.bytes (p : Pbuf) : List UInt8 := p.segs.flatten

@[simp] theorem Pbuf.bytes_length (p : Pbuf) : p.bytes.length = p.totLen := p.totLen_eq.symm

/-- The copy loop of `pbuf_take`: each segment takes what fits into it. -/
def fill : List (List UInt8) → List UInt8 → List (List UInt8)
  | [], _ => []
  | s :: ss, d => (d.take s.length ++ s.drop d.length) :: fill ss (d.drop s.length)

theorem fill_length (ss : List (List UInt8)) (d : List UInt8) :
    (fill ss d).flatten.length = ss.flatten.length := by
  induction ss generalizing d with
  | nil => rfl
  | cons s ss ih =>
    simp only [fill, List.flatten_cons, List.length_append, List.length_take, List.length_drop, ih]
    omega

theorem flatten_fill (ss : List (List UInt8)) {d : List UInt8}
    (h : d.length = ss.flatten.length) : (fill ss d).flatten = d := by
  induction ss generalizing d with
  | nil => exact (List.eq_nil_of_length_eq_zero h).symm
  | cons s ss ih =>
    rw [List.flatten_cons, List.length_append] at h
    have hrest : (d.drop s.length).length = ss.flatten.length := by
      rw [List.length_drop]
      omega
    rw [fill, List.flatten_cons, ih hrest, List.drop_eq_nil_of_le (by omega), List.append_nil,
      List.take_append_drop]

/-- `pbuf_take`, which copies nothing when the chain is too short. -/
def pbufTake (p : Pbuf) (d : List UInt8) : Pbuf :=
  if p.totLen < d.length then p
  else ⟨fill p.segs d, p.totLen, by rw [fill_length, p.totLen_eq], p.totLen_lt⟩

/-- A chain of the right length holds exactly what was copied into it. -/
theorem pbufTake_bytes {p : Pbuf} {d : List UInt8} (h : p.totLen = d.length) :
    (pbufTake p d).bytes = d := by
  rw [pbufTake, if_neg (by omega)]
  exact flatten_fill p.segs (by rw [← h, p.totLen_eq])

end EthDriver.Pbufs
