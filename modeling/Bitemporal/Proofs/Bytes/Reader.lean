import Bitemporal.Bytes.Reader
import Bitemporal.Proofs.Refusal
import Bitemporal.Uuid

/-!
# Readers and forms

What a value looks like in octets is a relation between values and octets, its *form*.
A reader *reads* a form if it answers with a value exactly when it stands before a form
of the value, and takes just that form (`Reader.Reads`). So it accepts what is written
in this form, whatever follows, and accepts nothing else.

Readers are put together, and so are the forms that they read: one form after another
(`Reads.bind`), a number of them (`Reads.times`), and a form after its length
(`Reads.counted`). The readers of words are the leaves.
-/

namespace Bitemporal

namespace LittleEndian

theorem value_lt (l : List UInt8) : value l < Nat.pow 256 l.length := by
  induction l with
  | nil => exact Nat.one_pos
  | cons b rest ih =>
    have hb := b.toNat_lt
    have hpow : Nat.pow 256 (b :: rest).length = 256 * Nat.pow 256 rest.length := Nat.mul_comm _ _
    rw [value, hpow]
    omega

/-- The octets of a number that they can hold are those that stand for it. -/
theorem eq_octets_iff {width n : Nat} {l : List UInt8} (hn : n < Nat.pow 256 width) :
    l = octets width n ↔ l.length = width ∧ value l = n := by
  constructor
  · rintro rfl
    exact ⟨length_octets width n, by rw [value_octets, Nat.mod_eq_of_lt hn]⟩
  · rintro ⟨rfl, rfl⟩
    exact (octets_value l).symm

end LittleEndian

/-- From one place to another there are just these octets. -/
def Cursor.Passes (c : Cursor) (octets : List UInt8) (c' : Cursor) : Prop :=
  c.rest = octets ++ c'.rest ∧ c'.position = c.position + octets.length

namespace Cursor

variable {c c' : Cursor}

theorem passes_nil : c.Passes [] c' ↔ c' = c := by
  obtain ⟨position, rest⟩ := c
  obtain ⟨position', rest'⟩ := c'
  simp [Passes, and_comm, eq_comm]

theorem passes_append {octets octets' : List UInt8} :
    c.Passes (octets ++ octets') c' ↔ ∃ c₁, c.Passes octets c₁ ∧ c₁.Passes octets' c' := by
  constructor
  · rintro ⟨hrest, hposition⟩
    refine ⟨⟨c.position + octets.length, octets' ++ c'.rest⟩, ⟨?_, rfl⟩, rfl, ?_⟩
    · rw [hrest, List.append_assoc]
    · rw [hposition, List.length_append, Nat.add_assoc]
  · rintro ⟨c₁, ⟨hrest, hposition⟩, hrest', hposition'⟩
    refine ⟨?_, ?_⟩
    · rw [hrest, hrest', List.append_assoc]
    · rw [hposition', hposition, List.length_append, Nat.add_assoc]

/-- A place from which octets are passed that are all there are is the end. -/
theorem passes_start_iff {octets octets' : List UInt8} :
    (Cursor.start octets).Passes octets' c ↔
      octets = octets' ++ c.rest ∧ c.position = octets'.length := by
  simp [Passes, Cursor.start]

end Cursor

namespace Reader

variable {ε α β : Type} {read : Reader ε α} {F G : α → List UInt8 → Prop}

/-- The reader answers `a` just when it stands before octets that are a form of `a`, and
    then it passes them. -/
def Reads (read : Reader ε α) (F : α → List UInt8 → Prop) : Prop :=
  ∀ c a c', read c = .ok (a, c') ↔ ∃ octets, F a octets ∧ c.Passes octets c'

theorem bind_apply (read : Reader ε α) (f : α → Reader ε β) (c : Cursor) :
    (read >>= f) c = (read c >>= fun p => f p.1 p.2) := rfl

/-- A number of items is the first one and then the others. -/
theorem times_succ_eq_bind (read : Reader ε α) (n : Nat) :
    times (n + 1) read = (read >>= fun a => do return a :: (← times n read)) := by
  funext c
  rw [times_succ, bind_apply]
  cases read c with
  | error e => rfl
  | ok p =>
    show _ = ((do return p.1 :: (← times n read)) : Reader ε (List α)) p.2
    rw [bind_apply]
    dsimp only
    cases times n read p.2 <;> rfl

/-- The items of a list are those of its first element and then those of the others. -/
theorem each_cons_eq_bind (read : β → Reader ε α) (b : β) (l : List β) :
    each read (b :: l) = (read b >>= fun a => do return a :: (← each read l)) := by
  funext c
  rw [each_cons, bind_apply]
  cases read b c with
  | error e => rfl
  | ok p =>
    show _ = ((do return p.1 :: (← each read l)) : Reader ε (List α)) p.2
    rw [bind_apply]
    dsimp only
    cases each read l p.2 <;> rfl

/-- To make something else of each item is to make it of all of them. -/
theorem each_map {γ : Type} (f : α → γ) (read : β → Reader ε α) (l : List β) :
    each (fun b => do return f (← read b)) l = (do return (← each read l).map f) := by
  induction l with
  | nil => rfl
  | cons b l ih => simp only [each_cons_eq_bind, ih, bind_assoc, pure_bind, List.map_cons]

theorem each_cons_eq_ok_iff {read : β → Reader ε α} {b : β} {l : List β} {c c' : Cursor}
    {items : List α} : each read (b :: l) c = .ok (items, c') ↔ ∃ a c₁ rest,
      read b c = .ok (a, c₁) ∧ each read l c₁ = .ok (rest, c') ∧ items = a :: rest := by
  rw [each_cons_eq_bind, bind_apply, bind_eq_ok_iff]
  constructor
  · rintro ⟨⟨a, c₁⟩, ha, hl⟩
    obtain ⟨⟨rest, c₂⟩, hrest, hend⟩ := bind_eq_ok_iff.1 hl
    obtain ⟨rfl, rfl⟩ := Prod.mk.inj (Except.ok.inj hend)
    exact ⟨a, c₁, rest, ha, hrest, rfl⟩
  · rintro ⟨a, c₁, rest, ha, hl, rfl⟩
    exact ⟨(a, c₁), ha, bind_eq_ok_iff.2 ⟨(rest, c'), hl, rfl⟩⟩

namespace Reads

theorem congr (h : Reads read F) (hFG : ∀ a octets, F a octets ↔ G a octets) : Reads read G := by
  obtain rfl : F = G := funext fun a => funext fun octets => propext (hFG a octets)
  exact h

theorem pure (a : α) : Reads (pure a : Reader ε α) fun b octets => b = a ∧ octets = [] := by
  intro c b c'
  have hp : (Pure.pure a : Reader ε α) c = .ok (a, c) := rfl
  rw [hp]
  constructor
  · rintro ⟨⟩
    exact ⟨[], ⟨rfl, rfl⟩, Cursor.passes_nil.2 rfl⟩
  · rintro ⟨octets, ⟨rfl, rfl⟩, hc⟩
    rw [Cursor.passes_nil.1 hc]

theorem throw (e : ε) : Reads (throw e : Reader ε α) fun _ _ => False := by
  intro c b c'
  have ht : (MonadExcept.throw e : Reader ε α) c = .error e := rfl
  simp [ht]

/-- One form follows the other. -/
theorem bind {f : α → Reader ε β} {G : α → β → List UInt8 → Prop} (h : Reads read F)
    (hf : ∀ a, Reads (f a) (G a)) :
    Reads (read >>= f) fun b octets =>
      ∃ a first second, F a first ∧ G a b second ∧ octets = first ++ second := by
  intro c b c'
  rw [bind_apply, bind_eq_ok_iff]
  constructor
  · rintro ⟨⟨a, c₁⟩, hr, hf'⟩
    obtain ⟨first, hF, hc⟩ := (h ..).1 hr
    obtain ⟨second, hG, hc'⟩ := (hf a ..).1 hf'
    exact ⟨_, ⟨a, first, second, hF, hG, rfl⟩, Cursor.passes_append.2 ⟨c₁, hc, hc'⟩⟩
  · rintro ⟨_, ⟨a, first, second, hF, hG, rfl⟩, hc⟩
    obtain ⟨c₁, hc, hc'⟩ := Cursor.passes_append.1 hc
    exact ⟨(a, c₁), (h ..).2 ⟨first, hF, hc⟩, (hf a ..).2 ⟨second, hG, hc'⟩⟩

/-- The form is that of the value from which the answer is made. -/
theorem map (h : Reads read F) (f : α → β) :
    Reads (do return f (← read)) fun b octets => ∃ a, b = f a ∧ F a octets :=
  (h.bind fun a => pure (f a)).congr fun b octets => by simp [and_comm]

/-! ### Interpretation

What was read may be interpreted, and refused if it means nothing, without reading on. -/

variable {f : α → Reader ε β} {R : β → Prop}

theorem answer {b : β} (hR : ∀ b', R b' ↔ b' = b) :
    Reads (Pure.pure b : Reader ε β) fun b' octets => R b' ∧ octets = [] :=
  (pure b).congr fun b' octets => by rw [hR]

theorem refuse (e : ε) (hR : ∀ b', ¬ R b') :
    Reads (MonadExcept.throw e : Reader ε β) fun b' octets => R b' ∧ octets = [] :=
  (throw e).congr fun b' octets => by simp [hR b']

theorem interpret {R : α → β → Prop} (h : Reads read F)
    (hf : ∀ a, Reads (f a) fun b octets => R a b ∧ octets = []) :
    Reads (read >>= f) fun b octets => ∃ a, F a octets ∧ R a b := by
  refine (h.bind hf).congr fun b octets => ?_
  constructor
  · rintro ⟨a, first, _, hF, ⟨hR, rfl⟩, rfl⟩
    exact ⟨a, by rwa [List.append_nil], hR⟩
  · rintro ⟨a, hF, hR⟩
    exact ⟨a, octets, [], hF, ⟨hR, rfl⟩, (List.append_nil _).symm⟩

/-- An interpretation that is a partial function. -/
theorem interpret? {g : α → Option β} (h : Reads read F)
    (hsome : ∀ {a b}, g a = some b → f a = Pure.pure b)
    (hnone : ∀ {a}, g a = none → ∃ e, f a = MonadExcept.throw e) :
    Reads (read >>= f) fun b octets => ∃ a, F a octets ∧ g a = some b := by
  refine h.interpret (R := fun a b => g a = some b) fun a => ?_
  cases hg : g a with
  | some b =>
    rw [hsome hg]
    exact .answer fun b' => by rw [Option.some.injEq, eq_comm]
  | none =>
    obtain ⟨e, he⟩ := hnone hg
    rw [he]
    exact .refuse e fun b => by simp

/-! ### Octets and words -/

/-- Octets up to a number of them are read if there are as many, whatever the fault is
    otherwise. -/
theorem takeOr (n : Nat) (fault : Cursor → ε) :
    Reads (fun c => if (c.rest.take n).length = n
        then .ok (c.rest.take n, ⟨c.position + n, c.rest.drop n⟩) else .error (fault c))
      fun l octets => l.length = n ∧ octets = l := by
  intro c l c'
  constructor
  · intro h
    dsimp only at h
    split at h
    · next hn =>
      obtain ⟨rfl, rfl⟩ := Prod.mk.inj (Except.ok.inj h)
      refine ⟨_, ⟨hn, rfl⟩, (List.take_append_drop n c.rest).symm, ?_⟩
      rw [hn]
    · cases h
  · rintro ⟨octets, ⟨hn, rfl⟩, hrest, hposition⟩
    obtain ⟨position, rest⟩ := c
    obtain ⟨position', rest'⟩ := c'
    obtain rfl : rest = octets ++ rest' := hrest
    obtain rfl : position' = position + octets.length := hposition
    dsimp only
    rw [List.take_left' hn, List.drop_left' hn, if_pos hn, hn]

section Words

variable [EndOfInput ε]

theorem take (n : Nat) :
    Reads (take n : Reader ε (List UInt8)) fun l octets => l.length = n ∧ octets = l :=
  takeOr n fun _ => EndOfInput.endOfInput

theorem octet : Reads (octet : Reader ε UInt8) fun b octets => octets = [b] := by
  intro c b c'
  obtain ⟨position, rest⟩ := c
  obtain ⟨position', rest'⟩ := c'
  cases rest with
  | nil => simp [Reader.octet, Cursor.Passes]
  | cons b' rest => simp [Reader.octet, Cursor.Passes, and_assoc, and_comm, eq_comm]

/-- A word is read from the octets of the number that it is. -/
theorem word {ω : Type} {width : Nat} (ofNat : Nat → ω) (toNat : ω → Nat)
    (hlt : ∀ x, toNat x < Nat.pow 256 width) (hofNat : ∀ x, ofNat (toNat x) = x)
    (htoNat : ∀ n, n < Nat.pow 256 width → toNat (ofNat n) = n) :
    Reads (do return ofNat (LittleEndian.value (← Reader.take width)) : Reader ε ω)
      fun x octets => octets = LittleEndian.octets width (toNat x) := by
  refine ((take width).map fun l => ofNat (LittleEndian.value l)).congr fun x octets => ?_
  rw [LittleEndian.eq_octets_iff (hlt x)]
  constructor
  · rintro ⟨l, rfl, hl, rfl⟩
    have hv := LittleEndian.value_lt octets
    rw [hl] at hv
    exact ⟨hl, (htoNat _ hv).symm⟩
  · rintro ⟨hl, hv⟩
    exact ⟨octets, by rw [hv, hofNat], hl, rfl⟩

theorem uint16 :
    Reads (uint16 : Reader ε UInt16) fun x octets => octets = LittleEndian.ofUInt16 x :=
  word _ _ UInt16.toNat_lt (fun _ => UInt16.ofNat_toNat) fun _ => UInt16.toNat_ofNat_of_lt

theorem uint32 :
    Reads (uint32 : Reader ε UInt32) fun x octets => octets = LittleEndian.ofUInt32 x :=
  word _ _ UInt32.toNat_lt (fun _ => UInt32.ofNat_toNat) fun _ => UInt32.toNat_ofNat_of_lt

theorem int32 :
    Reads (int32 : Reader ε Int32) fun x octets => octets = LittleEndian.ofInt32 x := by
  refine (uint32.map UInt32.toInt32).congr fun x octets => ?_
  constructor
  · rintro ⟨a, rfl, rfl⟩
    rfl
  · rintro rfl
    exact ⟨x.toUInt32, rfl, rfl⟩

theorem int64 :
    Reads (int64 : Reader ε Int64) fun x octets => octets = LittleEndian.ofInt64 x :=
  word (fun n => (UInt64.ofNat n).toInt64) (fun x => x.toUInt64.toNat)
    (fun x => x.toUInt64.toNat_lt) (fun _ => congrArg UInt64.toInt64 UInt64.ofNat_toNat)
    fun _ => UInt64.toNat_ofNat_of_lt

/-- An identifier is read from its octets. -/
theorem uuid {f : List UInt8 → Reader ε Uuid}
    (hsome : ∀ {l uuid}, Uuid.ofOctets? l = some uuid → f l = Pure.pure uuid)
    (hnone : ∀ {l}, Uuid.ofOctets? l = none → ∃ e, f l = MonadExcept.throw e) :
    Reads (Reader.take 16 >>= f) fun uuid octets => octets = uuid.octets := by
  refine ((take 16).interpret? hsome hnone).congr fun uuid octets => ?_
  simp only [Uuid.ofOctets?_eq_some_iff]
  constructor
  · rintro ⟨l, ⟨-, rfl⟩, rfl⟩
    rfl
  · rintro rfl
    exact ⟨_, ⟨uuid.length_octets, rfl⟩, rfl⟩

end Words

/-! ### Counts and repetition -/

/-- A value is read from a word that says its length, and from its form. -/
theorem counted {ω : Type} {width : Nat} {word : Reader ε ω} {toNat : ω → Nat}
    {items : Nat → Reader ε α} {length : α → Nat}
    (hword : Reads word fun x octets => octets = LittleEndian.octets width (toNat x))
    (hrange : ∀ n, n < Nat.pow 256 width ↔ ∃ x, toNat x = n)
    (hitems : ∀ n, Reads (items n) fun a octets => length a = n ∧ F a octets) :
    Reads (word >>= fun x => items (toNat x)) fun a octets =>
      length a < Nat.pow 256 width ∧
        ∃ rest, F a rest ∧ octets = LittleEndian.octets width (length a) ++ rest := by
  refine (hword.bind fun x => hitems (toNat x)).congr fun a octets => ?_
  constructor
  · rintro ⟨x, _, rest, rfl, ⟨hx, hF⟩, rfl⟩
    exact ⟨(hrange _).2 ⟨x, hx.symm⟩, rest, hF, by rw [hx]⟩
  · rintro ⟨hlt, rest, hF, rfl⟩
    obtain ⟨x, hx⟩ := (hrange _).1 hlt
    exact ⟨x, _, rest, rfl, ⟨hx.symm, hF⟩, by rw [hx]⟩

section Counts

variable [EndOfInput ε] {items : Nat → Reader ε α} {length : α → Nat}

theorem counted16 (hitems : ∀ n, Reads (items n) fun a octets => length a = n ∧ F a octets) :
    Reads (Reader.uint16 >>= fun count => items count.toNat) fun a octets =>
      length a < UInt16.size ∧
        ∃ rest, F a rest ∧ octets = LittleEndian.octets 2 (length a) ++ rest :=
  counted uint16 (fun _ => ⟨fun h => ⟨_, UInt16.toNat_ofNat_of_lt h⟩,
    fun ⟨x, hx⟩ => hx ▸ x.toNat_lt⟩) hitems

theorem counted32 (hitems : ∀ n, Reads (items n) fun a octets => length a = n ∧ F a octets) :
    Reads (Reader.uint32 >>= fun count => items count.toNat) fun a octets =>
      length a < UInt32.size ∧
        ∃ rest, F a rest ∧ octets = LittleEndian.octets 4 (length a) ++ rest :=
  counted uint32 (fun _ => ⟨fun h => ⟨_, UInt32.toNat_ofNat_of_lt h⟩,
    fun ⟨x, hx⟩ => hx ▸ x.toNat_lt⟩) hitems

end Counts

/-- What is read first may be read together with what follows it. -/
theorem assoc {γ : Type} {H : γ → List UInt8 → Prop} {f : α → Reader ε β} {g : β → Reader ε γ}
    (h : Reads (read >>= f >>= g) H) : Reads (read >>= fun a => f a >>= g) H :=
  bind_assoc read f g ▸ h

/-- A form that values have in any case. -/
theorem always {write : α → List UInt8} (h : Reads read fun a octets => octets = write a) :
    Reads read fun a octets => True ∧ octets = write a :=
  h.congr fun _ _ => by rw [true_and]

/-- A number of items is read from their forms, one after the other. -/
theorem times {Valid : α → Prop} {write : α → List UInt8}
    (h : Reads read fun a octets => Valid a ∧ octets = write a) (n : Nat) :
    Reads (times n read) fun l octets =>
      l.length = n ∧ (∀ a ∈ l, Valid a) ∧ octets = l.flatMap write := by
  induction n with
  | zero =>
    refine (pure []).congr fun l octets => ?_
    rw [List.length_eq_zero_iff]
    refine and_congr_right fun hl => ?_
    subst hl
    simp
  | succ n ih =>
    rw [times_succ_eq_bind]
    refine (h.bind fun a => ih.map (a :: ·)).congr fun l octets => ?_
    constructor
    · rintro ⟨a, _, _, ⟨ha, rfl⟩, ⟨l, rfl, hn, hl, rfl⟩, rfl⟩
      exact ⟨congrArg (· + 1) hn, List.forall_mem_cons.2 ⟨ha, hl⟩, rfl⟩
    · rintro ⟨hn, hl, rfl⟩
      cases l with
      | nil => cases hn
      | cons a l =>
        obtain ⟨ha, hl⟩ := List.forall_mem_cons.1 hl
        exact ⟨a, _, _, ⟨ha, rfl⟩, ⟨l, rfl, Nat.succ.inj hn, hl, rfl⟩, rfl⟩

end Reads

end Reader

end Bitemporal
