import SealedStream.Header

/-!
# The header codec

What the decoder makes of a buffer is settled by the first bytes that decide it: more bytes behind
them change nothing (`Header.decode_append`), and there are few bytes that decide nothing
(`length_lt_of_needMore`). It reads exactly what `encode` writes, of the headers that are
`Admitted`: `decode_encode_append` one way, `decode_complete` the other, and so
`decode_complete_iff`. The codec is a bijection in this sense (`codec_bijective`).
-/

namespace SealedStream

namespace Bytes

theorem be32?_append {bs : Bytes} {n : UInt32} (h : be32? bs = some n) (rest : Bytes) :
    be32? (bs ++ rest) = some n := by
  rw [eq_be32_append_of_be32? h, List.append_assoc, be32?_be32_append]

theorem be32?_drop_length {bs : Bytes} {k : Nat} {n : UInt32} (h : be32? (bs.drop k) = some n) :
    k + 4 ≤ bs.length := by
  have : ¬ (bs.drop k).length < 4 := by rw [← be32?_eq_none_iff, h]; simp
  rw [List.length_drop] at this
  omega

theorem be32?_drop_append {bs : Bytes} {k : Nat} {n : UInt32} (h : be32? (bs.drop k) = some n)
    (rest : Bytes) : be32? ((bs ++ rest).drop k) = some n := by
  have := be32?_drop_length h
  rw [List.drop_append_of_le_length (by omega)]
  exact be32?_append h rest

end Bytes

namespace Header

open Bytes

/-- A header that a decoder lets through which expects `expected`. -/
structure Admitted (expected : Option UInt32) (h : Header) : Prop where
  version : ∀ v, expected = some v → h.version = v
  iv : h.wrappedIv.length ≤ maxWrappedLen
  key : h.wrappedKey.length ≤ maxWrappedLen

theorem checkVersion_eq_ok {expected : Option UInt32} {v : UInt32} :
    checkVersion expected v = .ok () ↔ ∀ w, expected = some w → v = w := by
  cases expected with
  | none => simp [checkVersion]
  | some w => by_cases hv : v = w <;> simp [checkVersion, hv]

theorem checkLength_eq_ok {field : WrappedField} {n : UInt32} :
    checkLength field n = .ok () ↔ n.toNat ≤ maxWrappedLen := by
  by_cases h : maxWrappedLen < n.toNat
  · simp [checkLength, h]
  · simp [checkLength, h]
    omega

theorem length_encode (h : Header) : h.encode.length = h.encodedLen := by
  simp [encode, encodedLen, fixedLen]
  omega

/-- The three integers in front of the wrapped secrets. -/
theorem encode_eq (h : Header) (rest : Bytes) :
    h.encode ++ rest = be32 h.version ++ (be32 (UInt32.ofNat h.wrappedIv.length) ++
      (be32 (UInt32.ofNat h.wrappedKey.length) ++ (h.wrappedIv ++ (h.wrappedKey ++ rest)))) := by
  simp [encode]

/-! ## The decoder, field by field -/

theorem decode_of_short {buf : Bytes} (expected : Option UInt32) (h : be32? buf = none) :
    decode buf expected = .ok .needMore := by
  rw [decode, h]

theorem decode_of_foreign {buf : Bytes} {expected : Option UInt32} {v : UInt32} {e : Error}
    (h : be32? buf = some v) (hv : checkVersion expected v = .error e) :
    decode buf expected = .error e := by
  simp [decode, h, hv, bind, Except.bind]

theorem decode_of_noLengths {buf : Bytes} {expected : Option UInt32} {v : UInt32}
    (h : be32? buf = some v) (hv : checkVersion expected v = .ok ())
    (hl : be32? (buf.drop 4) = none ∨ be32? (buf.drop 8) = none) :
    decode buf expected = .ok .needMore := by
  simp only [decode, h, hv, bind, Except.bind]
  rcases hl with hl | hl
  · rw [hl]; rfl
  · rw [hl]; cases be32? (buf.drop 4) <;> rfl

/-- What the decoder makes of a buffer once it has read version `v` and lengths `m` and `n`. -/
def decodeRest (buf : Bytes) (v m n : UInt32) : Except Error Decoded := do
  checkLength .iv m
  checkLength .key n
  if buf.length < fixedLen + m.toNat + n.toNat then return .needMore
  return .complete
    ⟨v, (buf.drop fixedLen).take m.toNat, (buf.drop (fixedLen + m.toNat)).take n.toNat⟩
    (fixedLen + m.toNat + n.toNat)

theorem decode_of_lengths {buf : Bytes} {expected : Option UInt32} {v m n : UInt32}
    (h : be32? buf = some v) (hv : checkVersion expected v = .ok ())
    (hm : be32? (buf.drop 4) = some m) (hn : be32? (buf.drop 8) = some n) :
    decode buf expected = decodeRest buf v m n := by
  simp only [decode, decodeRest, h, hv, hm, hn, bind, Except.bind]

/-- A decoder that does not ask for more refused the version, or has read both lengths. -/
theorem decode_decided {buf : Bytes} {expected : Option UInt32}
    (h : decode buf expected ≠ .ok .needMore) :
    ∃ v, be32? buf = some v ∧
      ((∃ e, checkVersion expected v = .error e) ∨
        checkVersion expected v = .ok () ∧
          ∃ m n, be32? (buf.drop 4) = some m ∧ be32? (buf.drop 8) = some n) := by
  cases hv : be32? buf with
  | none => exact absurd (decode_of_short expected hv) h
  | some v =>
    refine ⟨v, rfl, ?_⟩
    cases hc : checkVersion expected v with
    | error e => exact .inl ⟨e, rfl⟩
    | ok _ =>
      refine .inr ⟨rfl, ?_⟩
      cases hm : be32? (buf.drop 4) with
      | none => exact absurd (decode_of_noLengths hv hc (.inl hm)) h
      | some m =>
        cases hn : be32? (buf.drop 8) with
        | none => exact absurd (decode_of_noLengths hv hc (.inr hn)) h
        | some n => exact ⟨m, n, rfl, rfl⟩

/-- Lengths within the limit and a buffer that holds what they announce make a header. -/
theorem decodeRest_eq_complete {buf : Bytes} {v m n : UInt32} {d : Decoded}
    (h : decodeRest buf v m n = .ok d) (hd : d ≠ .needMore) :
    m.toNat ≤ maxWrappedLen ∧ n.toNat ≤ maxWrappedLen ∧
      fixedLen + m.toNat + n.toNat ≤ buf.length ∧
      d = .complete
        ⟨v, (buf.drop fixedLen).take m.toNat, (buf.drop (fixedLen + m.toNat)).take n.toNat⟩
        (fixedLen + m.toNat + n.toNat) := by
  unfold decodeRest at h
  cases hm : checkLength .iv m with
  | error e => rw [hm] at h; cases h
  | ok _ =>
    cases hn : checkLength .key n with
    | error e => rw [hm, hn] at h; cases h
    | ok _ =>
      simp only [hm, hn, bind, Except.bind] at h
      by_cases hlen : buf.length < fixedLen + m.toNat + n.toNat
      · rw [if_pos hlen] at h
        cases h
        exact absurd rfl hd
      · rw [if_neg hlen] at h
        cases h
        exact ⟨checkLength_eq_ok.mp hm, checkLength_eq_ok.mp hn, by omega, rfl⟩

/-- What is refused behind the version is refused as a header. -/
theorem decodeRest_refused {buf : Bytes} {v m n : UInt32} {e : Error}
    (h : decodeRest buf v m n = .error e) : ∃ fault, e = .header fault := by
  simp only [decodeRest, checkLength] at h
  split at h
  · cases h
    exact ⟨_, rfl⟩
  · split at h
    · cases h
      exact ⟨_, rfl⟩
    · simp only [bind, Except.bind] at h
      split at h <;> cases h

/-- What is refused is refused for the header's own sake, not for a transfer's. -/
theorem isIo_of_refused {buf : Bytes} {expected : Option UInt32} {e : Error}
    (h : decode buf expected = .error e) : e.isIo = false := by
  have hdec : decode buf expected ≠ .ok .needMore := by rw [h]; simp
  obtain ⟨v, hv, ⟨e', hc⟩ | ⟨hc, m, n, hm, hn⟩⟩ := decode_decided hdec
  · rw [decode_of_foreign hv hc] at h
    cases h
    cases expected with
    | none => cases hc
    | some w =>
      simp only [checkVersion] at hc
      split at hc
      · cases hc
      · cases hc
        rfl
  · rw [decode_of_lengths hv hc hm hn] at h
    obtain ⟨fault, rfl⟩ := decodeRest_refused h
    rfl

/-- A check passes for the version at the front alone, and reports that one if it fails. -/
theorem decode_unsupported_iff {buf : Bytes} {v w u : UInt32} (hv : be32? buf = some v) :
    decode buf (some w) = .error (.unsupportedVersion u) ↔ v ≠ w ∧ u = v := by
  by_cases hw : v = w
  · have hc : checkVersion (some w) v = .ok () := if_pos hw
    refine iff_of_false (fun h => ?_) (fun h => h.1 hw)
    have hdec : decode buf (some w) ≠ .ok .needMore := by rw [h]; simp
    obtain ⟨v', hv', ⟨e, hc'⟩ | ⟨-, m, n, hm, hn⟩⟩ := decode_decided hdec
    · cases hv.symm.trans hv'
      cases hc.symm.trans hc'
    · rw [decode_of_lengths hv hc hm hn] at h
      obtain ⟨fault, hfault⟩ := decodeRest_refused h
      cases hfault
  · have hc : checkVersion (some w) v = .error (.unsupportedVersion v) := if_neg hw
    rw [decode_of_foreign hv hc]
    simp [hw, eq_comm]

/-! ## More bytes -/

theorem decodeRest_append {buf : Bytes} {v m n : UInt32} (rest : Bytes)
    (h : decodeRest buf v m n ≠ .ok .needMore) :
    decodeRest (buf ++ rest) v m n = decodeRest buf v m n := by
  cases hd : decodeRest buf v m n with
  | error e =>
    unfold decodeRest at hd ⊢
    cases hm : checkLength .iv m with
    | error e => rw [hm] at hd; exact hd
    | ok _ =>
      cases hn : checkLength .key n with
      | error e => rw [hm, hn] at hd; exact hd
      | ok _ =>
        simp only [hm, hn, bind, Except.bind] at hd
        split at hd <;> cases hd
  | ok d =>
    obtain ⟨hm, hn, hlen, rfl⟩ := decodeRest_eq_complete hd (fun e => h (by rw [hd, e]))
    have hlen' : ¬ (buf ++ rest).length < fixedLen + m.toNat + n.toNat := by
      rw [List.length_append]; omega
    unfold decodeRest
    rw [checkLength_eq_ok.mpr hm, checkLength_eq_ok.mpr hn]
    simp only [bind, Except.bind]
    rw [if_neg hlen', List.drop_append_of_le_length (by omega),
      List.drop_append_of_le_length (by omega),
      List.take_append_of_le_length (by rw [List.length_drop]; omega),
      List.take_append_of_le_length (by rw [List.length_drop]; omega)]
    rfl

/-- A buffer that decided the decoder decides it with any bytes behind it. -/
theorem decode_append {buf : Bytes} {expected : Option UInt32} (rest : Bytes)
    (h : decode buf expected ≠ .ok .needMore) :
    decode (buf ++ rest) expected = decode buf expected := by
  obtain ⟨v, hv, ⟨e, hc⟩ | ⟨hc, m, n, hm, hn⟩⟩ := decode_decided h
  · rw [decode_of_foreign hv hc, decode_of_foreign (be32?_append hv rest) hc]
  · have hbuf := decode_of_lengths hv hc hm hn
    rw [hbuf] at h ⊢
    rw [decode_of_lengths (be32?_append hv rest) hc (be32?_drop_append hm rest)
      (be32?_drop_append hn rest), decodeRest_append rest h]

/-! ## Headers as they are written -/

theorem toNat_length {bs : Bytes} (h : bs.length ≤ maxWrappedLen) :
    (UInt32.ofNat bs.length).toNat = bs.length :=
  UInt32.toNat_ofNat_of_lt' (Nat.lt_of_le_of_lt h (by decide))

theorem be32?_encode (h : Header) (rest : Bytes) :
    be32? (h.encode ++ rest) = some h.version := by
  rw [encode_eq, be32?_be32_append]

theorem drop_four_encode (h : Header) (rest : Bytes) :
    (h.encode ++ rest).drop 4 = be32 (UInt32.ofNat h.wrappedIv.length) ++
      (be32 (UInt32.ofNat h.wrappedKey.length) ++ (h.wrappedIv ++ (h.wrappedKey ++ rest))) := by
  rw [encode_eq, List.drop_left' (length_be32 _)]

theorem drop_eight_encode (h : Header) (rest : Bytes) :
    (h.encode ++ rest).drop 8 =
      be32 (UInt32.ofNat h.wrappedKey.length) ++ (h.wrappedIv ++ (h.wrappedKey ++ rest)) := by
  rw [show (8 : Nat) = 4 + 4 by rfl, ← List.drop_drop, drop_four_encode,
    List.drop_left' (length_be32 _)]

theorem drop_fixed_encode (h : Header) (rest : Bytes) :
    (h.encode ++ rest).drop fixedLen = h.wrappedIv ++ (h.wrappedKey ++ rest) := by
  rw [show fixedLen = 8 + 4 by rfl, ← List.drop_drop, drop_eight_encode,
    List.drop_left' (length_be32 _)]

/-- The decoder reads the lengths of a written header as they were written: modulo `2 ^ 32`. -/
theorem decode_encode {expected : Option UInt32} {h : Header}
    (hv : checkVersion expected h.version = .ok ()) (rest : Bytes) :
    decode (h.encode ++ rest) expected = decodeRest (h.encode ++ rest) h.version
      (UInt32.ofNat h.wrappedIv.length) (UInt32.ofNat h.wrappedKey.length) :=
  decode_of_lengths (be32?_encode h rest) hv
    (by rw [drop_four_encode, be32?_be32_append]) (by rw [drop_eight_encode, be32?_be32_append])

/-- What is written is read, with any bytes behind it. -/
theorem decode_encode_append {expected : Option UInt32} {h : Header} (ha : Admitted expected h)
    (rest : Bytes) : decode (h.encode ++ rest) expected = .ok (.complete h h.encode.length) := by
  have hiv := toNat_length ha.iv
  have hkey := toNat_length ha.key
  have hi : checkLength .iv (UInt32.ofNat h.wrappedIv.length) = .ok () :=
    checkLength_eq_ok.mpr (hiv.symm ▸ ha.iv)
  have hk : checkLength .key (UInt32.ofNat h.wrappedKey.length) = .ok () :=
    checkLength_eq_ok.mpr (hkey.symm ▸ ha.key)
  rw [decode_encode (checkVersion_eq_ok.mpr ha.version)]
  simp only [decodeRest, hi, hk, bind, Except.bind, hiv, hkey]
  have hlen :
      ¬ (h.encode ++ rest).length < fixedLen + h.wrappedIv.length + h.wrappedKey.length := by
    rw [List.length_append, length_encode, encodedLen]; omega
  rw [if_neg hlen, ← List.drop_drop, drop_fixed_encode, List.take_left' rfl, List.drop_left' rfl,
    List.take_left' rfl, length_encode]
  rfl

/-- What is read was written. -/
theorem decode_complete {buf : Bytes} {expected : Option UInt32} {h : Header} {n : Nat}
    (hd : decode buf expected = .ok (.complete h n)) :
    Admitted expected h ∧ n = h.encode.length ∧ buf = h.encode ++ buf.drop n := by
  have hdec : decode buf expected ≠ .ok .needMore := by rw [hd]; simp
  obtain ⟨v, hv, ⟨e, hc⟩ | ⟨hc, k, l, hk, hl⟩⟩ := decode_decided hdec
  · rw [decode_of_foreign hv hc] at hd
    cases hd
  · rw [decode_of_lengths hv hc hk hl] at hd
    obtain ⟨hkm, hlm, hlen, hcomplete⟩ := decodeRest_eq_complete hd (by simp)
    cases hcomplete
    have hiv : ((buf.drop fixedLen).take k.toNat).length = k.toNat := by
      rw [List.length_take, List.length_drop]; omega
    have hkey : ((buf.drop (fixedLen + k.toNat)).take l.toNat).length = l.toNat := by
      rw [List.length_take, List.length_drop]; omega
    refine ⟨⟨checkVersion_eq_ok.mp hc, ?_, ?_⟩, ?_, ?_⟩
    · exact hiv.symm ▸ hkm
    · exact hkey.symm ▸ hlm
    · rw [length_encode, encodedLen, hiv, hkey]
    · have e8 := eq_be32_append_of_be32? hl
      have e4 := eq_be32_append_of_be32? hk
      rw [List.drop_drop] at e8 e4
      rw [encode_eq]
      simp only [hiv, hkey, UInt32.ofNat_toNat]
      simp only [← List.drop_drop, List.take_append_drop]
      rw [show fixedLen = 8 + 4 by rfl, ← e8, ← e4]
      exact eq_be32_append_of_be32? hv

/-- A complete header has the version that the buffer begins with. -/
theorem version_of_complete {buf : Bytes} {expected : Option UInt32} {v : UInt32} {h : Header}
    {n : Nat} (hv : be32? buf = some v) (hd : decode buf expected = .ok (.complete h n)) :
    h.version = v := by
  obtain ⟨-, -, hbuf⟩ := decode_complete hd
  rw [hbuf, be32?_encode] at hv
  exact Option.some.inj hv

/-- A header that is not there to its end is waited for. -/
theorem decode_take_encode {expected : Option UInt32} {h : Header} (ha : Admitted expected h)
    (rest : Bytes) {k : Nat} (hk : k < h.encode.length) :
    decode ((h.encode ++ rest).take k) expected = .ok .needMore := by
  refine Classical.byContradiction fun hd => ?_
  have hwhole := decode_append ((h.encode ++ rest).drop k) hd
  rw [List.take_append_drop, decode_encode_append ha] at hwhole
  obtain ⟨-, -, hb⟩ := decode_complete hwhole.symm
  have hlen := congrArg List.length hb
  rw [List.length_append, List.length_take] at hlen
  omega

/-! ## When the decoder decides -/

/-- Lengths within the limit are waited for as long as their bytes are not all there. -/
theorem decodeRest_eq_needMore {buf : Bytes} {v m n : UInt32}
    (h : decodeRest buf v m n = .ok .needMore) :
    m.toNat ≤ maxWrappedLen ∧ n.toNat ≤ maxWrappedLen ∧
      buf.length < fixedLen + m.toNat + n.toNat := by
  unfold decodeRest at h
  cases hm : checkLength .iv m with
  | error e => rw [hm] at h; cases h
  | ok _ =>
    cases hn : checkLength .key n with
    | error e => rw [hm, hn] at h; cases h
    | ok _ =>
      refine ⟨checkLength_eq_ok.mp hm, checkLength_eq_ok.mp hn, ?_⟩
      simp only [hm, hn, bind, Except.bind] at h
      by_cases hlen : buf.length < fixedLen + m.toNat + n.toNat
      · exact hlen
      · rw [if_neg hlen] at h
        cases h

/-- A decoder asks for more of a short buffer only: the fixed part and two secrets at the limit are
more than enough. -/
theorem length_lt_of_needMore {buf : Bytes} {expected : Option UInt32}
    (hd : decode buf expected = .ok .needMore) :
    buf.length < fixedLen + 2 * maxWrappedLen := by
  refine Nat.lt_of_not_le fun hlen => ?_
  have hpart {k : Nat} (hk : k ≤ 8) : ∃ n, be32? (buf.drop k) = some n := by
    refine Option.ne_none_iff_exists'.mp fun hnone => ?_
    rw [be32?_eq_none_iff, List.length_drop] at hnone
    rw [fixedLen] at hlen
    omega
  obtain ⟨v, hv⟩ := hpart (k := 0) (by decide)
  obtain ⟨m, hm⟩ := hpart (k := 4) (by decide)
  obtain ⟨n, hn⟩ := hpart (k := 8) (by decide)
  rw [List.drop_zero] at hv
  cases hc : checkVersion expected v with
  | error e =>
    rw [decode_of_foreign hv hc] at hd
    cases hd
  | ok _ =>
    rw [decode_of_lengths hv hc hm hn] at hd
    obtain ⟨hml, hnl, hshort⟩ := decodeRest_eq_needMore hd
    omega

/-- **The decoder decides once, and in bounded time.** What it says of a buffer, a header or an
error, it says of every longer one; it never refuses the beginning of a header that it reads whole;
and it does not ask for more of a buffer that could hold two secrets at the limit. -/
theorem decode_settles (expected : Option UInt32) :
    (∀ (buf : Bytes) (h : Header) (n : Nat), decode buf expected = .ok (.complete h n) →
      ∀ rest, decode (buf ++ rest) expected = .ok (.complete h n)) ∧
    (∀ (buf : Bytes) (e : Error), decode buf expected = .error e →
      ∀ rest, decode (buf ++ rest) expected = .error e) ∧
    (∀ h : Header, h.wrappedIv.length ≤ maxWrappedLen → h.wrappedKey.length ≤ maxWrappedLen →
      expected = none ∨ expected = some h.version →
        ∀ k < h.encode.length, decode (h.encode.take k) expected = .ok .needMore) ∧
    ∀ buf : Bytes, decode buf expected = .ok .needMore →
      buf.length < fixedLen + 2 * maxWrappedLen := by
  refine ⟨fun buf h n hd rest => ?_, fun buf e hd rest => ?_, fun h hiv hkey hexpected k hk => ?_,
    fun buf hd => length_lt_of_needMore hd⟩
  · rw [decode_append rest (by rw [hd]; simp), hd]
  · rw [decode_append rest (by rw [hd]; simp), hd]
  · have hadm : Admitted expected h := by
      refine ⟨?_, hiv, hkey⟩
      rintro v rfl
      simpa [eq_comm] using hexpected
    have htake := decode_take_encode hadm [] hk
    rwa [List.append_nil] at htake

/-- A header of version 7 and its beginnings, one of version 9, and two bytes that decide
nothing. -/
theorem decode_settles_seven :
    decode (encode ⟨7, [1], [2, 3]⟩ ++ [4]) (some 7) = .ok (.complete ⟨7, [1], [2, 3]⟩ 15) ∧
      decode ([0, 0, 0, 9] ++ [0]) (some 7) = .error (.unsupportedVersion 9) ∧
      decode ((encode ⟨7, [1], [2, 3]⟩).take 14) (some 7) = .ok .needMore ∧
      [0, 0].length < fixedLen + 2 * maxWrappedLen :=
  ⟨(decode_settles (some 7)).1 _ _ _ rfl [4],
    (decode_settles (some 7)).2.1 _ _ rfl [0],
    (decode_settles (some 7)).2.2.1 ⟨7, [1], [2, 3]⟩ (by decide) (by decide) (.inr rfl) 14
      (by decide),
    (decode_settles (some 7)).2.2.2 [0, 0] rfl⟩

/-- A complete header is at the front if, and only if, the front is what the header is written
as. -/
theorem decode_complete_iff {buf : Bytes} {expected : Option UInt32} {h : Header} {n : Nat} :
    decode buf expected = .ok (.complete h n) ↔
      Admitted expected h ∧ n = h.encode.length ∧ ∃ rest, buf = h.encode ++ rest := by
  constructor
  · intro hd
    obtain ⟨ha, hn, hb⟩ := decode_complete hd
    exact ⟨ha, hn, _, hb⟩
  · rintro ⟨ha, rfl, rest, rfl⟩
    exact decode_encode_append ha rest

/-- The codec is a bijection: it reads every header it writes, whatever stands behind it, and a
header that it reads is written as just the bytes that it was read from. -/
theorem codec_bijective :
    (∀ (h : Header) (rest : Bytes) (expected : Option UInt32),
      h.wrappedIv.length ≤ maxWrappedLen → h.wrappedKey.length ≤ maxWrappedLen →
      expected = none ∨ expected = some h.version →
        decode (h.encode ++ rest) expected = .ok (.complete h h.encodedLen) ∧
          h.encodedLen = h.encode.length) ∧
    ∀ (buf : Bytes) (expected : Option UInt32) (h : Header) (n : Nat),
      decode buf expected = .ok (.complete h n) →
        n ≤ buf.length ∧ h.encode = buf.take n ∧ n = h.encodedLen ∧
          h.wrappedIv.length ≤ maxWrappedLen ∧ h.wrappedKey.length ≤ maxWrappedLen ∧
          ∀ v, expected = some v → h.version = v := by
  refine ⟨fun h rest expected hiv hkey hexpected => ?_, fun buf expected h n hd => ?_⟩
  · have hversion : ∀ v, expected = some v → h.version = v := by
      rintro v rfl
      simpa [eq_comm] using hexpected
    have hlen := (length_encode h).symm
    exact ⟨decode_complete_iff.mpr ⟨⟨hversion, hiv, hkey⟩, hlen, rest, rfl⟩, hlen⟩
  · obtain ⟨ha, hn, rest, hbuf⟩ := decode_complete_iff.mp hd
    have hle : n ≤ buf.length := by
      rw [hbuf, hn, List.length_append]
      exact Nat.le_add_right _ _
    have htake : h.encode = buf.take n := by
      rw [hbuf, hn, List.take_left]
    exact ⟨hle, htake, by rw [hn, length_encode], ha.iv, ha.key, ha.version⟩

/-- An IV at the limit, no key at all and two bytes behind. -/
theorem codec_bijective_atLimit :
    decode (encode ⟨7, List.replicate maxWrappedLen 5, []⟩ ++ [1, 2]) (some 7) =
        .ok (.complete ⟨7, List.replicate maxWrappedLen 5, []⟩ 16396) ∧
      encode ⟨7, List.replicate maxWrappedLen 5, []⟩ =
        (encode ⟨7, List.replicate maxWrappedLen 5, []⟩ ++ [1, 2]).take 16396 := by
  have hlen : encodedLen ⟨7, List.replicate maxWrappedLen 5, []⟩ = 16396 := by
    rw [encodedLen, List.length_replicate]
    rfl
  have hread := (codec_bijective.1 ⟨7, List.replicate maxWrappedLen 5, []⟩ [1, 2] (some 7)
    (Nat.le_of_eq List.length_replicate) (Nat.zero_le _) (.inr rfl)).1
  rw [hlen] at hread
  exact ⟨hread, (codec_bijective.2 _ _ _ _ hread).2.1⟩

/-- Two headers that are written alike are the same, unless their lengths could be equal modulo
`2 ^ 32` only. -/
theorem encode_injective {h h' : Header} (hiv : h.wrappedIv.length < UInt32.size)
    (hiv' : h'.wrappedIv.length < UInt32.size) (he : h.encode = h'.encode) : h = h' := by
  have he' : h.encode ++ [] = h'.encode ++ [] := by rw [he]
  have hversion := congrArg be32? he'
  rw [be32?_encode, be32?_encode] at hversion
  have hlength := congrArg (fun bs => be32? (bs.drop 4)) he'
  simp only [drop_four_encode, be32?_be32_append] at hlength
  have hsecrets := congrArg (List.drop fixedLen) he'
  rw [drop_fixed_encode, drop_fixed_encode, List.append_nil, List.append_nil] at hsecrets
  have hlen : h.wrappedIv.length = h'.wrappedIv.length := by
    have := congrArg UInt32.toNat (Option.some.inj hlength)
    rwa [UInt32.toNat_ofNat_of_lt' hiv, UInt32.toNat_ofNat_of_lt' hiv'] at this
  obtain ⟨hi, hk⟩ := List.append_inj hsecrets hlen
  cases h
  cases h'
  simp_all

/-- A written header is read whole as nothing but itself, and only if it is admitted. -/
theorem decode_encode_whole {h h' : Header} {expected : Option UInt32}
    (hd : decode h.encode expected = .ok (.complete h' h.encode.length)) :
    h' = h ∧ Admitted expected h := by
  obtain ⟨ha, hn, hb⟩ := decode_complete hd
  rw [List.drop_length, List.append_nil] at hb
  have hiv := ha.iv
  have hkey := ha.key
  rw [length_encode, length_encode, encodedLen, encodedLen] at hn
  have hsize : maxWrappedLen + maxWrappedLen + maxWrappedLen < UInt32.size := by decide
  have heq : h = h' := encode_injective (by omega) (by omega) hb
  exact ⟨heq.symm, heq ▸ ha⟩

/-- A whole header is at the front, of any version. -/
def AtFront (bs : Bytes) : Prop := ∃ h rest, Admitted none h ∧ bs = encode h ++ rest

theorem not_atFront_nil : ¬ AtFront [] := by
  rintro ⟨h, rest, -, hb⟩
  have hlen := congrArg List.length hb
  rw [List.length_append, length_encode, encodedLen, fixedLen, List.length_nil] at hlen
  omega

theorem atFront_of_complete {buf : Bytes} {expected : Option UInt32} {h : Header} {n : Nat}
    (hd : decode buf expected = .ok (.complete h n)) : AtFront buf := by
  obtain ⟨ha, -, hb⟩ := decode_complete hd
  exact ⟨h, _, ⟨by simp, ha.iv, ha.key⟩, hb⟩

/-- A decoder does not ask for more behind a whole header, though it may refuse its version. -/
theorem not_atFront_of_needMore {buf : Bytes} {expected : Option UInt32}
    (hd : decode buf expected = .ok .needMore) : ¬ AtFront buf := by
  rintro ⟨h, rest, ha, rfl⟩
  cases hc : checkVersion expected h.version with
  | error e =>
    rw [decode_of_foreign (be32?_encode h rest) hc] at hd
    cases hd
  | ok _ =>
    rw [decode_encode_append ⟨checkVersion_eq_ok.mp hc, ha.iv, ha.key⟩] at hd
    cases hd

/-- Nothing can be told from no bytes. -/
theorem decode_nil (expected : Option UInt32) : decode [] expected = .ok .needMore := rfl

end Header

end SealedStream
