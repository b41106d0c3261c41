import SimpleBlockchain.ChainApi

/-!
# Characters in hexadecimal and back

`char2hex` writes any string. `hex2char` decodes into a buffer of 1024 zero bytes
and makes a string of what stands there up to the first zero byte, which need not
be the one that ends the string.
-/

namespace SimpleBlockchain

def byteStr (d : Bytes) : Str := d.map fun c => Char.ofNat c.toNat

/-- `out_data` after `hex2char` has decoded into it. -/
def hex2charBuffer (hex : Str) : Except Exn Bytes := do
  let outData ← fromHex hex 1024
  .ok (outData ++ List.replicate (1024 - outData.length) 0)

theorem hex2char_eq (env : ApiEnv) (hex : Str) : hex2char env hex = (do
    let buffer ← hex2charBuffer hex
    .ok (byteStr ((buffer ++ env.beyond).takeWhile (· ≠ 0)))) := by
  rw [hex2char, hex2charBuffer]
  cases fromHex hex 1024 <;> rfl

/-! ## Bytes as characters -/

theorem toNat_ofNat_byte (c : UInt8) : (Char.ofNat c.toNat).toNat = c.toNat := by
  have hvalid : c.toNat.isValidChar := Or.inl (Nat.lt_trans c.toNat_lt (by decide))
  rw [Char.ofNat, dif_pos hvalid]
  rfl

theorem bytes_byteStr (d : Bytes) : (byteStr d).map (fun c => UInt8.ofNat c.toNat) = d := by
  rw [byteStr, List.map_map, List.map_congr_left (g := id), List.map_id]
  intro c _
  rw [Function.comp, toNat_ofNat_byte, UInt8.ofNat_toNat, id]

theorem byteStr_inj {d d' : Bytes} : byteStr d = byteStr d' ↔ d = d' := by
  constructor
  · intro h
    rw [← bytes_byteStr d, h, bytes_byteStr]
  · exact congrArg byteStr

theorem char2hex_byteStr (d : Bytes) :
    char2hex (byteStr d) = toHex d (UInt32.ofNat d.length) := by
  rw [char2hex, bytes_byteStr, byteStr, List.length_map]

/-! ## The text in a zero-filled buffer -/

section ZeroFilled

variable {α : Type} [DecidableEq α] {z : α} {l l' : List α}

theorem takeWhile_append_of_mem (h : z ∈ l) :
    (l ++ l').takeWhile (· ≠ z) = l.takeWhile (· ≠ z) := by
  induction l with
  | nil => cases h
  | cons a l ih =>
      rw [List.cons_append]
      by_cases ha : a = z
      · rw [List.takeWhile_cons_of_neg (by simp [ha]), List.takeWhile_cons_of_neg (by simp [ha])]
      · rw [List.takeWhile_cons_of_pos (by simp [ha]), List.takeWhile_cons_of_pos (by simp [ha]),
          ih ((List.mem_cons.1 h).resolve_left (Ne.symm ha))]

theorem takeWhile_fill (h : z ∉ l) (k : ℕ) :
    (l ++ List.replicate k z).takeWhile (· ≠ z) = l := by
  rw [List.takeWhile_append_of_pos]
  · cases k <;> simp
  · intro a ha
    rw [decide_eq_true_iff]
    rintro rfl
    exact h ha

theorem length_takeWhile_lt (h : z ∈ l) : (l.takeWhile (· ≠ z)).length < l.length := by
  have hcut : l.takeWhile (· ≠ z) <+: l := List.takeWhile_prefix _
  apply Nat.lt_of_le_of_ne hcut.length_le
  intro hlen
  have hself := List.takeWhile_eq_self_iff.1 (hcut.eq_of_length hlen) z h
  simp at hself

end ZeroFilled

/-! ## The round trip -/

theorem hexText_inj {d d' : Bytes} : hexText d = hexText d' ↔ d = d' := by
  constructor
  · intro h
    have hd := fromHex_hexText d (max d.length d'.length)
    rw [h, fromHex_hexText, List.take_of_length_le (le_max_right _ _),
      List.take_of_length_le (le_max_left _ _), Except.ok.injEq] at hd
    exact hd.symm
  · exact congrArg hexText

theorem hex2charBuffer_char2hex (d : Bytes) : hex2charBuffer (char2hex (byteStr d)) =
    .ok (((d.take (UInt32.ofNat d.length).toNat).take 1024) ++
      List.replicate (1024 - ((d.take (UInt32.ofNat d.length).toNat).take 1024).length) 0) := by
  rw [hex2charBuffer, char2hex_byteStr, toHex_eq, fromHex_hexText, ok_bind]

/-- Exactly the strings without a zero byte that leave room for one come back, from a buffer
with a terminator. -/
theorem hex2char_char2hex_iff (env : ApiEnv) (d : Bytes) :
    (hex2char env (char2hex (byteStr d)) = .ok (byteStr d) ∧
      ∃ buffer, hex2charBuffer (char2hex (byteStr d)) = .ok buffer ∧ 0 ∈ buffer) ↔
    0 ∉ d ∧ d.length < 1024 := by
  rw [hex2char_eq, hex2charBuffer_char2hex]
  generalize hout : (d.take (UInt32.ofNat d.length).toNat).take 1024 = outData
  have hsize : outData.length ≤ 1024 := by
    rw [← hout]
    exact List.length_take_le _ _
  simp only [ok_bind, Except.ok.injEq, byteStr_inj, exists_eq_left']
  constructor
  · rintro ⟨htext, hzero⟩
    rw [takeWhile_append_of_mem hzero] at htext
    have hlt := length_takeWhile_lt hzero
    rw [htext, List.length_append, List.length_replicate] at hlt
    refine ⟨fun hmem => ?_, by omega⟩
    rw [← htext] at hmem
    have hne := List.mem_takeWhile_imp hmem
    simp at hne
  · rintro ⟨hzero, hlen⟩
    have hnat : (UInt32.ofNat d.length).toNat = d.length :=
      UInt32.toNat_ofNat_of_lt' (by rw [UInt32.size]; omega)
    rw [hnat, List.take_length, List.take_of_length_le (by omega)] at hout
    subst hout
    have hend : (0 : UInt8) ∈ d ++ List.replicate (1024 - d.length) 0 := by
      apply List.mem_append_right
      rw [List.mem_replicate]
      exact ⟨by omega, rfl⟩
    exact ⟨by rw [takeWhile_append_of_mem hend, takeWhile_fill hzero], hend⟩

/-- An environment in which a letter stands behind the buffer. -/
def Sample.beyondEnv : ApiEnv where
  toEnv := Sample.env
  blkNum := 0
  beyond := [66]
  generated := ⟨.k1, Sample.secret⟩

/-- A zero byte comes back as no byte. 1024 letters fill the buffer, and what stands
behind it is read. -/
theorem sample_not_read_back :
    hex2char Sample.beyondEnv (char2hex (byteStr [0])) = .ok [] ∧ byteStr [0] ≠ [] ∧
      (¬ ∃ buffer, hex2charBuffer (char2hex (byteStr (List.replicate 1024 65))) = .ok buffer ∧
        0 ∈ buffer) ∧
      hex2char Sample.beyondEnv (char2hex (byteStr (List.replicate 1024 65))) =
        .ok (byteStr (List.replicate 1024 65 ++ [66])) := by
  have hfull : hex2charBuffer (char2hex (byteStr (List.replicate 1024 65))) =
      .ok (List.replicate 1024 65) := by
    have hlen : (UInt32.ofNat 1024).toNat = 1024 := by decide
    rw [hex2charBuffer_char2hex, List.length_replicate, hlen, List.take_replicate,
      List.take_replicate, List.length_replicate, min_self, min_self, Nat.sub_self,
      List.replicate_zero, List.append_nil]
  refine ⟨by decide, by decide, ?_, ?_⟩
  · rintro ⟨buffer, hbuffer, hzero⟩
    rw [hfull, Except.ok.injEq] at hbuffer
    rw [← hbuffer, List.mem_replicate] at hzero
    exact absurd hzero.2 (by decide)
  · rw [hex2char_eq, hfull, ok_bind, List.takeWhile_append_of_pos]
    · rfl
    · intro c hc
      rw [List.eq_of_mem_replicate hc]
      decide

end SimpleBlockchain
