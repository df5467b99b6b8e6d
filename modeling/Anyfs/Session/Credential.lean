import Anyfs.Path.Decode
import Anyfs.Session.Container

/-!
# Credentials in a path

A credential travels in the query of a path component, `p1?key=<value>`, with percent escapes. They
do not protect it against `resolve_luks_credential`: the query it gets is decoded already, so the
value used is the one up to its first `&` (`resolveLuksCredential_pair`).
-/

namespace Anyfs

open List CString

/-- The credentials a component can give. -/
inductive CredKey where
  | key
  | keyfile
  deriving DecidableEq

open CredKey

namespace CredKey

def name : CredKey → Bytes
  | .key => ascii "key"
  | .keyfile => ascii "keyfile"

def use (ce : CredEnv) (outCap : ℕ) : CredKey → Bytes → Except Bytes Bytes
  | .key, v => .ok (v.take outCap)
  | .keyfile, v => readKeyfile ce outCap v

theorem plain_of_mem_name {k : CredKey} {c : UInt8} (h : c ∈ k.name) :
    c ≠ 37 ∧ c ≠ 38 ∧ c ≠ 61 ∧ c ≠ slash ∧ c ≠ 0 := by
  have hall : k.name.all (fun c => c ≠ 37 ∧ c ≠ 38 ∧ c ≠ 61 ∧ c ≠ slash ∧ c ≠ 0) = true := by
    cases k <;> decide
  exact of_decide_eq_true (all_eq_true.mp hall c h)

theorem luksPair_eq (ce : CredEnv) (outCap : ℕ) (k : CredKey) (v : Bytes) :
    luksPair ce outCap (k.name ++ 61 :: v) = some (k.use ce outCap v) := by
  have hname : ∀ c ∈ k.name, (c != 61) = true := fun c hc =>
    bne_iff_ne.mpr (plain_of_mem_name hc).2.2.1
  have hkey : (k.name ++ 61 :: v).takeWhile (· != 61) = k.name := by
    rw [takeWhile_append_of_pos hname, takeWhile_cons_of_neg (by decide), append_nil]
  have hvalue : (k.name ++ 61 :: v).dropWhile (· != 61) = 61 :: v := by
    rw [dropWhile_append_of_pos hname, dropWhile_cons_of_neg (by decide)]
  rw [luksPair, if_neg (not_not.mpr (mem_append_right _ mem_cons_self)), hkey, hvalue]
  cases k with
  | key => rfl
  | keyfile => rfl

end CredKey

/-! ### Values with every byte percent-encoded -/

/-- A text in which every byte of a value is percent-encoded, with hexadecimal digits of either
case. -/
inductive Encoded : Bytes → Bytes → Prop
  | nil : Encoded [] []
  | byte {a b : UInt8} {hi lo : ℕ} {t v : Bytes} : hexNyb a = some hi → hexNyb b = some lo →
      Encoded t v → Encoded (37 :: a :: b :: t) (UInt8.ofNat (hi * 16 + lo) :: v)

theorem Encoded.decodes {t v : Bytes} (h : Encoded t v) : Decodes t v := by
  induction h with
  | nil => exact .nil
  | byte ha hb _ ih => exact .escape ha hb ih

theorem ne_slash_of_hexNyb {c : UInt8} {n : ℕ} (h : hexNyb c = some n) : c ≠ slash := by
  rintro rfl
  cases (show hexNyb slash = none by decide).symm.trans h

theorem Encoded.slash_notMem {t v : Bytes} (h : Encoded t v) : slash ∉ t := by
  induction h with
  | nil => exact not_mem_nil
  | byte ha hb _ ih =>
    simp only [mem_cons, not_or]
    exact ⟨by decide, (ne_slash_of_hexNyb ha).symm, (ne_slash_of_hexNyb hb).symm, ih⟩

theorem decodes_plain {q : Bytes} (h : 37 ∉ q) : Decodes q q := by
  induction q with
  | nil => exact .nil
  | cons c q ih =>
    simp only [mem_cons, not_or] at h
    exact .plain (Ne.symm h.1) (ih h.2)

/-! ### The path with a credential -/

/-- The path `p1?<key>=<value>`. -/
def credPath (k : CredKey) (t : Bytes) : Bytes := ascii "p1?" ++ k.name ++ 61 :: t

variable {k : CredKey} {t v : Bytes}

theorem anyfsPathParse_credPath (h : Encoded t v) (h0 : 0 ∉ v) :
    anyfsPathParse (credPath k t) = some ⟨none, [⟨1, some (k.name ++ 61 :: v)⟩]⟩ := by
  have hquery : Decodes (k.name ++ 61 :: t) (k.name ++ 61 :: v) :=
    (decodes_plain fun hp => (plain_of_mem_name hp).1 rfl).append
      (.plain (by decide) h.decodes)
  have hnonzero : 0 ∉ k.name ++ 61 :: v := by
    rw [mem_append, mem_cons]
    rintro (hn | hn | hn)
    · exact (plain_of_mem_name hn).2.2.2.2 rfl
    · exact absurd hn (by decide)
    · exact h0 hn
  have hslash : slash ∉ credPath k t := by
    rw [credPath, mem_append, mem_append, mem_cons]
    rintro ((hs | hs) | hs | hs)
    · exact absurd hs (by decide)
    · exact (plain_of_mem_name hs).2.2.2.1 rfl
    · exact absurd hs (by decide)
    · exact h.slash_notMem hs
  have hcomp : parseComponent (credPath k t) = some ⟨1, some (k.name ++ 61 :: v)⟩ := by
    refine parseComponent_eq_some.mpr ⟨[49], some (k.name ++ 61 :: t), false, [49], ?_, ?_, ?_, ?_,
      ?_⟩
    · exact ⟨112, .inl rfl, by decide, rfl⟩
    · exact Numeral.scanned ⟨by decide, forall_mem_singleton.mpr (by decide)⟩
    · decide
    · rfl
    · exact .some ⟨_, hquery, (cstr_eq_self_iff.mpr hnonzero).symm⟩
  have hchain : IsChain [credPath k t] := by
    refine ⟨cons_ne_nil _ _, fun seg hseg => ?_⟩
    obtain rfl := mem_singleton.mp hseg
    exact ⟨rfl, hslash⟩
  have hone : parseComponents [credPath k t] = some [⟨1, some (k.name ++ 61 :: v)⟩] :=
    parseComponents_eq_some.mpr
      ⟨cons_ne_nil _ _, by rw [length_singleton]; decide, .cons hcomp .nil⟩
  have hparse := anyfsPathParse_intercalate hchain
  rwa [intercalate_singleton, length_singleton, if_neg (by decide), hone] at hparse

theorem resolveLuksCredential_pair (ce : CredEnv) (outCap : ℕ) (k : CredKey) (v : Bytes) :
    resolveLuksCredential ce (some (k.name ++ 61 :: v)) outCap =
      k.use ce outCap (v.takeWhile (· != 38)) := by
  have hfirst : ∀ u : Bytes, 38 ∉ u → 38 ∉ k.name ++ 61 :: u := by
    intro u hu
    rw [mem_append, mem_cons]
    rintro (h | h | h)
    · exact (plain_of_mem_name h).2.1 rfl
    · exact absurd h (by decide)
    · exact hu h
  have hfront : 38 ∉ v.takeWhile (· != 38) := fun h => by simpa using mem_takeWhile_imp h
  rw [resolveLuksCredential]
  rcases hrest : v.dropWhile (· != 38) with _ | ⟨c, rest⟩
  · -- the query is one pair
    have hv : v.takeWhile (· != 38) = v := by
      have := takeWhile_append_dropWhile (p := (· != 38)) (l := v)
      rwa [hrest, append_nil] at this
    rw [hv] at hfront ⊢
    rw [splitOn_eq_singleton (hfirst v hfront), List.findSome?_cons, luksPair_eq]
    rfl
  · -- the rest of the value is taken for further pairs, which the first one hides
    have hc : c = 38 := by
      simpa [hrest] using head_dropWhile_not (p := (· != 38)) (l := v)
        (by rw [hrest]; exact cons_ne_nil _ _)
    have hv : k.name ++ 61 :: v = (k.name ++ 61 :: v.takeWhile (· != 38)) ++ 38 :: rest := by
      conv_lhs => rw [← takeWhile_append_dropWhile (p := (· != 38)) (l := v), hrest, hc]
      simp
    rw [hv, splitOn_append_cons_self_of_not_mem (hfirst _ hfront), List.findSome?_cons, luksPair_eq]
    rfl

def CredEnv.oneFile (path : Bytes) : CredEnv :=
  { CredEnv.empty with fopen := fun v => if v = path then .ok [1] else .error 2 }

theorem CredKey.use_injective {k : CredKey} {u v : Bytes}
    (h : ∀ ce outCap, k.use ce outCap u = k.use ce outCap v) : u = v := by
  cases k with
  | key =>
    have huse := h .empty (u.length + v.length)
    simp only [use, Except.ok.injEq] at huse
    rwa [take_of_length_le (by omega), take_of_length_le (by omega)] at huse
  | keyfile =>
    have huse := h (.oneFile v) 1
    by_contra hne
    simp [use, readKeyfile, CredEnv.oneFile, hne] at huse

/-- The value used for a key is the encoded one up to its first `&`, so that it is the whole
value, on every host and for every capacity, exactly when the value has no `&`. -/
theorem resolveLuksCredential_encoded (k : CredKey) (h : Encoded t v) (h0 : 0 ∉ v) :
    ∃ query, anyfsPathParse (credPath k t) = some ⟨none, [⟨1, query⟩]⟩ ∧
      (∀ ce outCap, resolveLuksCredential ce query outCap =
        k.use ce outCap (v.takeWhile (· != 38))) ∧
      ((∀ ce outCap, resolveLuksCredential ce query outCap = k.use ce outCap v) ↔ 38 ∉ v) := by
  refine ⟨_, anyfsPathParse_credPath h h0, fun ce cap => resolveLuksCredential_pair ce cap k v, ?_⟩
  simp only [resolveLuksCredential_pair]
  constructor
  · intro huse hamp
    have hv := use_injective huse
    rw [← hv] at hamp
    simpa using mem_takeWhile_imp hamp
  · intro hamp ce cap
    rw [takeWhile_eq_self_iff.mpr]
    intro c hc
    rw [bne_iff_ne]
    rintro rfl
    exact hamp hc

/-- The value `=%` is used whole. -/
theorem resolveLuksCredential_encoded_percent :
    Encoded (ascii "%3d%25") (ascii "=%") ∧ 0 ∉ ascii "=%" ∧ 38 ∉ ascii "=%" ∧
      ∃ query, anyfsPathParse (credPath .keyfile (ascii "%3d%25")) = some ⟨none, [⟨1, query⟩]⟩ ∧
        (∀ ce outCap, resolveLuksCredential ce query outCap =
          keyfile.use ce outCap ((ascii "=%").takeWhile (· != 38))) ∧
        ((∀ ce outCap, resolveLuksCredential ce query outCap =
          keyfile.use ce outCap (ascii "=%")) ↔ 38 ∉ ascii "=%") :=
  have hencoded : Encoded (ascii "%3d%25") (ascii "=%") :=
    .byte (show hexNyb 51 = some 3 from rfl) (show hexNyb 100 = some 13 from rfl)
      (.byte (show hexNyb 50 = some 2 from rfl) (show hexNyb 53 = some 5 from rfl) .nil)
  ⟨hencoded, by decide, by decide, resolveLuksCredential_encoded .keyfile hencoded (by decide)⟩

/-- The value `a&b` is cut at its `&`, although it is encoded. -/
theorem resolveLuksCredential_ampersand :
    Encoded (ascii "%61%26%62") (ascii "a&b") ∧
      ∃ query, anyfsPathParse (credPath .key (ascii "%61%26%62")) = some ⟨none, [⟨1, query⟩]⟩ ∧
        resolveLuksCredential .empty query 128 = .ok (ascii "a") ∧
        key.use .empty 128 (ascii "a&b") = .ok (ascii "a&b") := by
  refine ⟨?_, some (ascii "key=a&b"), by decide +kernel, by rfl, by rfl⟩
  have hsix : hexNyb 54 = some 6 := rfl
  have htwo : hexNyb 50 = some 2 := rfl
  exact .byte hsix (show hexNyb 49 = some 1 from rfl) (.byte htwo hsix (.byte hsix htwo .nil))

end Anyfs
