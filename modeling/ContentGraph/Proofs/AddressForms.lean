import ContentGraph.Address
import ContentGraph.Outcome

/-! The binary form and the text form of an address determine it, and the binary form is the only
one that is read as it. -/

namespace ContentGraph

theorem Codec.ofCode_eq_ok_iff {code : UInt8} {c : Codec} :
    Codec.ofCode code = .ok c ↔ code = c.code := by
  simp only [Codec.ofCode]
  split
  · next h => subst h; cases c <;> simp [Codec.code]
  split
  · next h => subst h; cases c <;> simp [Codec.code]
  · next h55 h6D => cases c <;> simp [Codec.code, h55, h6D]

theorem HashFunction.ofCode_eq_ok_iff {code : UInt8} {f : HashFunction} :
    HashFunction.ofCode code = .ok f ↔ code = f.code := by
  cases f
  simp only [HashFunction.ofCode, HashFunction.code]
  split <;> simp [*]

theorem hexDigit_injective {m n : Nat} (hm : m < 16) (hn : n < 16) (h : hexDigit m = hexDigit n) :
    m = n := by
  have hall : ∀ m < 16, ∀ n < 16, hexDigit m = hexDigit n → m = n := by decide
  exact hall m hm n hn h

theorem hexOfBytes_injective {x y : Bytes} (h : hexOfBytes x = hexOfBytes y) : x = y := by
  induction x generalizing y with
  | nil =>
    cases y with
    | nil => rfl
    | cons => simp [hexOfBytes, hexOfByte] at h
  | cons a x ih =>
    cases y with
    | nil => simp [hexOfBytes, hexOfByte] at h
    | cons b y =>
      simp only [hexOfBytes, hexOfByte, List.flatMap_cons, List.cons_append, List.nil_append,
        List.cons.injEq] at h
      obtain ⟨hhigh, hlow, hrest⟩ := h
      have ha := a.toNat_lt
      have hb := b.toNat_lt
      have hhigh := hexDigit_injective (by omega) (by omega) hhigh
      have hlow := hexDigit_injective (by omega) (by omega) hlow
      have hab : a = b := UInt8.toNat_inj.mp (by omega)
      rw [hab, ih hrest]

namespace Address

@[simp] theorem length_toBytes (a : Address) : a.toBytes.length = binaryLength := by
  simp [toBytes, binaryLength]

theorem ofBytes_toBytes (a : Address) : ofBytes a.toBytes = .ok a := by
  have hcodec : Codec.ofCode a.codec.code = .ok a.codec := Codec.ofCode_eq_ok_iff.mpr rfl
  have hhash : HashFunction.ofCode a.hash.code = .ok a.hash := HashFunction.ofCode_eq_ok_iff.mpr rfl
  have hdigest : Vector.mk a.digest.toList.toArray (by simp) = a.digest := by
    rw [← Vector.toArray_inj]
    exact Array.toArray_toList
  simp [ofBytes, toBytes, digestLength, hcodec, hhash, bind, Except.bind, pure, Except.pure,
    hdigest]

theorem toBytes_of_ofBytes {data : Bytes} {a : Address} (h : ofBytes data = .ok a) :
    a.toBytes = data := by
  unfold ofBytes at h
  split at h
  · next version codecCode hashCode digestSize digest =>
    split at h
    · obtain ⟨codec, hcodec, h⟩ := bind_eq_ok_iff.mp h
      obtain ⟨hash, hhash, h⟩ := bind_eq_ok_iff.mp h
      split at h
      · next hsize =>
        have hdigest : digestSize = UInt8.ofNat digestLength := by
          rw [← hsize, UInt8.ofNat_toNat]
        cases h
        simp [toBytes, Codec.ofCode_eq_ok_iff.mp hcodec, HashFunction.ofCode_eq_ok_iff.mp hhash,
          hdigest]
      · cases h
    · cases h
  · cases h

theorem ofBytes_eq_ok_iff {data : Bytes} {a : Address} :
    ofBytes data = .ok a ↔ data = a.toBytes :=
  ⟨fun h => (toBytes_of_ofBytes h).symm, fun h => h ▸ ofBytes_toBytes a⟩

theorem toBytes_injective {a b : Address} (h : a.toBytes = b.toBytes) : a = b := by
  have ha := ofBytes_toBytes a
  rw [h, ofBytes_toBytes] at ha
  exact (Except.ok.inj ha).symm

theorem text_injective {a b : Address} (h : a.text = b.text) : a = b := by
  have hchars := String.ofList_injective h
  exact toBytes_injective (hexOfBytes_injective (List.cons.inj hchars).2)

end Address

end ContentGraph
