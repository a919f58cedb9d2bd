import RSearch.Lib.Bytes
import RSearch.Lib.Checked

/-!
# Tokens and credentials as text

Three bytes are four characters of six bits each, without padding; the decoder also reads the standard
alphabet and drops padding.  A group is one number of 24 bits (`number_eq`), of which the encoder writes
the sextets from the highest on.  The decoder adds them up again: the bits it joins with `|||` are
disjoint, so each step is an addition (`or_eq_add`, `packed_cons`), and a chunk comes back
(`unb64Chunk_b64Chunk`).  Whatever the text, the decoder returns: the shift of a sextet does not underflow
(`packed_returns`).
-/

namespace RSearch.Base64

open List

def b64Chars : List Char :=
  "ABCDEFGHIJKLMNOPQRSTUVWXYZabcdefghijklmnopqrstuvwxyz0123456789-_".toList

def sextet (n shift : ℕ) : Char := b64Chars.getD (n >>> shift &&& 63) 'A'

def b64Chunk (b₀ : UInt8) (rest : Bytes) : List Char :=
  let n := b₀.toNat <<< 16 ||| (rest.getD 0 0).toNat <<< 8 ||| (rest.getD 1 0).toNat
  [sextet n 18, sextet n 12] ++ (if 0 < rest.length then [sextet n 6] else []) ++
    if 1 < rest.length then [sextet n 0] else []

def b64 : Bytes → List Char
  | b₀ :: b₁ :: b₂ :: data => b64Chunk b₀ [b₁, b₂] ++ b64 data
  | b₀ :: rest => b64Chunk b₀ rest
  | [] => []

def value (c : UInt8) : Option ℕ :=
  if c = 43 then some 62 else if c = 47 then some 63
  else b64Chars.findIdx? fun x => UInt8.ofNat x.toNat = c

/-- The characters of a chunk from the `i`-th on, into the number `n`.  The shift is a subtraction of
machine integers. -/
def packed : ℕ → ℕ → Bytes → OptionT Checked ℕ
  | _, n, [] => pure n
  | i, n, c :: cs => do
    let v ← OptionT.mk (pure (value c))
    let shift ← Checked.u64 (18 - 6 * i)
    packed (i + 1) (n ||| v <<< shift) cs

def unb64Chunk (chunk : Bytes) : OptionT Checked Bytes :=
  if chunk.length < 2 then failure
  else do
    let n ← packed 0 0 chunk
    pure ([UInt8.ofNat (n >>> 16)] ++ (if 2 < chunk.length then [UInt8.ofNat (n >>> 8)] else []) ++
      if 3 < chunk.length then [UInt8.ofNat n] else [])

def unb64 : Bytes → OptionT Checked Bytes
  | [] => pure []
  | c₀ :: c₁ :: c₂ :: c₃ :: bytes => do
    let out ← unb64Chunk [c₀, c₁, c₂, c₃]
    return out ++ (← unb64 bytes)
  | chunk => unb64Chunk chunk

def bytesOf (s : List Char) : Bytes := s.flatMap String.utf8EncodeChar

def b64Decode (s : List Char) : OptionT Checked Bytes :=
  unb64 (bytesOf (s.rdropWhile (· = '=')))

/-- The character of the standard alphabet with the same value. -/
def standard (c : Char) : Char :=
  if c = '-' then '+' else if c = '_' then '/' else c

variable {f : Char → Char}

theorem value_sextet (hf : f ∈ [id, standard]) (n k : ℕ) :
    ∃ c, String.utf8EncodeChar (f (sextet n k)) = [c] ∧ value c = some (n / 2 ^ k % 64) ∧
      f (sextet n k) ≠ '=' := by
  rw [sextet, Nat.and_two_pow_sub_one_eq_mod _ 6, Nat.shiftRight_eq_div_pow]
  have hlt := Nat.mod_lt (n / 2 ^ k) (show 2 ^ 6 > 0 by decide)
  generalize n / 2 ^ k % 2 ^ 6 = i at hlt
  simp only [mem_cons, not_mem_nil, or_false] at hf
  obtain rfl | rfl := hf <;> revert i <;> decide +kernel

theorem or_eq_add (k : ℕ) {m v : ℕ} (hm : m % 2 ^ k = 0) (hv : v < 2 ^ k) : m ||| v = m + v := by
  rw [← Nat.div_add_mod m (2 ^ k), hm, add_zero, Nat.two_pow_add_eq_or_of_lt hv]

/-- **Each character extends what is known of the number** from its high end. -/
theorem packed_cons (i : ℕ) {m n : ℕ} {c : UInt8} {cs : Bytes}
    (hm : m = n / 2 ^ (24 - 6 * i) * 2 ^ (24 - 6 * i)) (hc : value c = some (n / 2 ^ (18 - 6 * i) % 64))
    (hi : i ≤ 3) : packed i m (c :: cs)
      = packed (i + 1) (n / 2 ^ (18 - 6 * i) * 2 ^ (18 - 6 * i)) cs := by
  rw [packed, hc, Checked.u64_eq_ok (m := 18 - 6 * i) (by omega) (by omega), hm]
  change packed _ (_ ||| _ <<< _) cs = _
  rw [Nat.shiftLeft_eq, or_eq_add (24 - 6 * i) (Nat.mul_mod_left ..) (by interval_cases i <;> omega)]
  congr 1
  interval_cases i <;> omega

theorem number_eq (b₀ b₁ b₂ : UInt8) : b₀.toNat <<< 16 ||| b₁.toNat <<< 8 ||| b₂.toNat
    = b₀.toNat * 65536 + b₁.toNat * 256 + b₂.toNat := by
  have h₁ := b₁.toNat_lt
  have h₂ := b₂.toNat_lt
  have hhigh := @or_eq_add 16 (b₀.toNat * 65536) (b₁.toNat * 256) (by omega) (by omega)
  rw [Nat.shiftLeft_eq, Nat.shiftLeft_eq, hhigh]
  exact or_eq_add 8 (by omega) (by omega)

theorem unb64Chunk_b64Chunk (hf : f ∈ [id, standard]) (b₀ : UInt8) {rest : Bytes} (h : rest.length < 3) :
    (bytesOf ((b64Chunk b₀ rest).map f)).length = rest.length + 2 ∧
      unb64Chunk (bytesOf ((b64Chunk b₀ rest).map f)) = pure (b₀ :: rest) := by
  have hbyte : ∀ {n : ℕ} {b : UInt8}, n % 256 = b.toNat → UInt8.ofNat n = b :=
    fun hn => UInt8.toNat_inj.mp (by rwa [UInt8.toNat_ofNat'])
  have h₀ := b₀.toNat_lt
  have h₁ := (rest.getD 0 0).toNat_lt
  have h₂ := (rest.getD 1 0).toNat_lt
  obtain ⟨n, hn⟩ : ∃ n, b₀.toNat * 65536 + (rest.getD 0 0).toNat * 256 + (rest.getD 1 0).toNat = n :=
    ⟨_, rfl⟩
  choose code hcode hvalue _ using value_sextet hf n
  have htwo : ∀ cs, packed 0 0 (code 18 :: code 12 :: cs) = packed 2 (n / 4096 * 4096) cs := fun cs =>
    (packed_cons 0 (by omega) (hvalue 18) (by omega)).trans (packed_cons 1 rfl (hvalue 12) (by omega))
  have hthree : ∀ cs, packed 0 0 (code 18 :: code 12 :: code 6 :: cs) = packed 3 (n / 64 * 64) cs :=
    fun cs => (htwo _).trans (packed_cons 2 rfl (hvalue 6) (by omega))
  have hfour : packed 0 0 [code 18, code 12, code 6, code 0] = pure (n / 1 * 1) :=
    (hthree _).trans (packed_cons 3 rfl (hvalue 0) (by omega))
  replace htwo := htwo []
  replace hthree := hthree []
  rw [packed] at htwo hthree
  simp only [b64Chunk, number_eq, hn, unb64Chunk, bytesOf, Nat.shiftRight_eq_div_pow]
  obtain _ | ⟨b₁, _ | ⟨b₂, _ | ⟨_, _⟩⟩⟩ := rest
  · simp [hcode, htwo, hbyte (show n / 4096 * 4096 / 65536 % 256 = b₀.toNat by omega)]
  · simp only [getD_cons_zero] at hn h₁
    simp [hcode, hthree, hbyte (show n / 64 * 64 / 65536 % 256 = b₀.toNat by omega),
      hbyte (show n / 64 * 64 / 256 % 256 = b₁.toNat by omega)]
  · simp only [getD_cons_zero, getD_cons_succ] at hn h₁ h₂
    simp [hcode, hfour, hbyte (show n / 65536 % 256 = b₀.toNat by omega),
      hbyte (show n / 256 % 256 = b₁.toNat by omega), hbyte (show n % 256 = b₂.toNat by omega)]
  · simp only [length_cons] at h
    omega

theorem unb64_append : {chunk : Bytes} → chunk.length = 4 → (bytes : Bytes) →
    unb64 (chunk ++ bytes) = do
      let out ← unb64Chunk chunk
      return out ++ (← unb64 bytes)
  | [_, _, _, _], _, _ => rfl

theorem unb64_short : {chunk : Bytes} → 1 < chunk.length → chunk.length < 4 →
    unb64 chunk = unb64Chunk chunk
  | [_, _], _, _ => rfl
  | [_, _, _], _, _ => rfl

theorem unb64_b64 (hf : f ∈ [id, standard]) (data : Bytes) :
    unb64 (bytesOf ((b64 data).map f)) = pure data := by
  fun_induction b64 data with
  | case1 b₀ b₁ b₂ data ih =>
    obtain ⟨hlength, hchunk⟩ := unb64Chunk_b64Chunk hf b₀ (show [b₁, b₂].length < 3 by simp)
    rw [map_append, bytesOf, flatMap_append, ← bytesOf, ← bytesOf, unb64_append hlength, hchunk, ih]
    rfl
  | case2 b₀ rest hrest =>
    have hshort : rest.length < 2 := by
      obtain _ | ⟨_, _ | ⟨_, _⟩⟩ := rest <;> simp_all
    obtain ⟨hlength, hchunk⟩ := unb64Chunk_b64Chunk hf b₀ (show rest.length < 3 by omega)
    rw [unb64_short (by omega) (by omega), hchunk]
  | case3 => rfl

theorem exists_sextet (data : Bytes) : ∀ c ∈ b64 data, ∃ n k, sextet n k = c := by
  have hchunk : ∀ b₀ rest, ∀ c ∈ b64Chunk b₀ rest, ∃ n k, sextet n k = c := by
    intro b₀ rest c hc
    unfold b64Chunk at hc
    split_ifs at hc <;> simp only [mem_append, mem_cons, not_mem_nil, or_false] at hc <;> aesop
  fun_induction b64 data <;> grind

theorem value_lt {c : UInt8} {v : ℕ} (h : value c = some v) : c < 128 := by
  have hall : ∀ c, (value c).isSome → c < 128 := by decide +kernel
  exact hall c (by simp [h])

theorem packed_returns (i n : ℕ) (cs : Bytes) (hi : i + cs.length ≤ 4) :
    ∃ out, packed i n cs = OptionT.mk (.ok out) ∧ (out ≠ none → ∀ c ∈ cs, c < 128) := by
  induction cs generalizing i n with
  | nil => exact ⟨some n, rfl, by simp⟩
  | cons c cs ih =>
    rw [length_cons] at hi
    rw [packed, Checked.u64_eq_ok (m := 18 - 6 * i) (by omega) (by omega)]
    cases hc : value c with
    | none => exact ⟨none, rfl, by simp⟩
    | some v =>
      obtain ⟨out, hout, hlt⟩ := ih (i + 1) (n ||| v <<< (18 - 6 * i)) (by omega)
      exact ⟨out, hout, fun ho => forall_mem_cons.mpr ⟨value_lt hc, hlt ho⟩⟩

theorem unb64Chunk_bounded (chunk : Bytes) (h : chunk.length ≤ 4) :
    ∃ out, unb64Chunk chunk = OptionT.mk (.ok out) ∧
      ∀ o ∈ out, 4 * o.length ≤ 3 * chunk.length ∧ ∀ c ∈ chunk, c < 128 := by
  obtain ⟨n, hn, hlt⟩ := packed_returns 0 0 chunk (by omega)
  unfold unb64Chunk
  by_cases hshort : chunk.length < 2
  · exact ⟨none, if_pos hshort, nofun⟩
  · rw [if_neg hshort, hn]
    cases n with
    | none => exact ⟨none, rfl, nofun⟩
    | some n =>
      refine ⟨_, rfl, ?_⟩
      rintro _ ⟨⟩
      grind

theorem unb64_bounded (bytes : Bytes) : ∃ out, unb64 bytes = OptionT.mk (.ok out) ∧
    ∀ o ∈ out, 4 * o.length ≤ 3 * bytes.length ∧ ∀ c ∈ bytes, c < 128 := by
  fun_induction unb64 bytes with
  | case1 => exact ⟨some [], rfl, by simp⟩
  | case2 c₀ c₁ c₂ c₃ bytes ih =>
    obtain ⟨out, hout, hlt⟩ := unb64Chunk_bounded [c₀, c₁, c₂, c₃] (by simp)
    obtain ⟨rest, hrest, hlts⟩ := ih
    rw [hout, hrest]
    cases out with
    | none => exact ⟨none, rfl, nofun⟩
    | some o =>
      cases rest with
      | none => exact ⟨none, rfl, nofun⟩
      | some r =>
        refine ⟨_, rfl, ?_⟩
        grind
  | case3 chunk hne hlong =>
    refine unb64Chunk_bounded chunk ?_
    obtain _ | ⟨_, _ | ⟨_, _ | ⟨_, _ | ⟨_, _⟩⟩⟩⟩ := chunk
    iterate 4 simp
    exact (hlong _ _ _ _ _ rfl).elim

theorem length_bytesOf (s : List Char) (h : ∀ b ∈ bytesOf s, b < 128) : (bytesOf s).length = s.length := by
  induction s with
  | nil => rfl
  | cons c s ih =>
    rw [bytesOf, flatMap_cons] at h ⊢
    rw [length_append, length_cons, ← bytesOf, ih fun b hb => h b (mem_append_right _ hb), add_comm]
    have hc : ∀ b ∈ String.utf8EncodeChar c, b < 128 := fun b hb => h b (mem_append_left _ hb)
    simp only [String.utf8EncodeChar] at hc ⊢
    split_ifs at hc ⊢
    · rfl
    all_goals
      simp [UInt8.lt_iff_toNat_lt] at hc
      omega

/-- **The decoder inverts the encoder**, in either alphabet and with any padding; it returns on every
text, and a text of `n` characters holds at most three bytes for each four of them. -/
theorem b64Decode_b64 (data : Bytes) (s : List Char) :
    (∀ f ∈ [id, standard], ∀ k, b64Decode ((b64 data).map f ++ replicate k '=') = pure data) ∧
      ∃ out, b64Decode s = OptionT.mk (.ok out) ∧ ∀ o ∈ out, 4 * o.length ≤ 3 * s.length := by
  constructor
  · intro f hf k
    have hlast : ∀ c ∈ (b64 data).map f, c ≠ '=' := by
      intro c hc
      obtain ⟨_, hmem, rfl⟩ := mem_map.mp hc
      obtain ⟨n, shift, rfl⟩ := exists_sextet data _ hmem
      obtain ⟨_, -, -, hne⟩ := value_sextet hf n shift
      exact hne
    rw [b64Decode, ← unb64_b64 hf data]
    rw [rdropWhile, reverse_append, reverse_replicate, dropWhile_append_of_pos (by simp),
      dropWhile_eq_self_iff.mpr, reverse_reverse]
    intro hpos
    have hmem := getElem_mem hpos
    simpa using hlast _ (mem_reverse.mp hmem)
  · obtain ⟨out, hout, hbound⟩ := unb64_bounded (bytesOf (s.rdropWhile (· = '=')))
    refine ⟨out, hout, fun o ho => ?_⟩
    obtain ⟨hlength, hlt⟩ := hbound o ho
    rw [length_bytesOf _ hlt] at hlength
    have hkept := rdropWhile_prefix (· = '=') s
    have hle := hkept.length_le
    omega

end RSearch.Base64
