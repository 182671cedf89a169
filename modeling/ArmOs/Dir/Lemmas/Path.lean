import ArmOs.Kernel.Fs
import ArmOs.Lib.Pad

/-!
# Paths

`split_path` accepts exactly the names of eight characters with an extension of three, and reads no byte after the
terminator.
-/

namespace ArmOs

open Lib

variable {path path' : Nat → UInt8} {i j k n : Nat} {p q u v name ext : List UInt8} {c : UInt8}

/-- The string `p` starts at the index `i`, with its terminator. -/
def StringAt (path : Nat → UInt8) : Nat → List UInt8 → Prop
  | i, [] => path i = 0
  | i, c :: p => path i = c ∧ c ≠ 0 ∧ StringAt path (i + 1) p

instance StringAt.decidable (path : Nat → UInt8) : (i : Nat) → (p : List UInt8) → Decidable (StringAt path i p)
  | i, [] => inferInstanceAs (Decidable (path i = 0))
  | i, c :: p =>
      have := StringAt.decidable path (i + 1) p
      inferInstanceAs (Decidable (path i = c ∧ c ≠ 0 ∧ StringAt path (i + 1) p))

theorem StringAt.append (h : StringAt path i (u ++ v)) : StringAt path (i + u.length) v := by
  induction u generalizing i with
  | nil => exact h
  | cons c u ih =>
      rw [List.length_cons, Nat.add_comm u.length, ← Nat.add_assoc]
      exact ih h.2.2

theorem StringAt.eq_nil (h : StringAt path i p) (hi : path i = 0) : p = [] := by
  cases p with
  | nil => rfl
  | cons c p => exact absurd (h.1.symm.trans hi) h.2.1

theorem StringAt.eq_cons (h : StringAt path i p) (hi : path i ≠ 0) : ∃ p', p = path i :: p' := by
  cases p with
  | nil => exact absurd h hi
  | cons c p => exact ⟨p, by rw [h.1]⟩

/-! ## The name -/

/-- The part `u` of a path that the first loop takes in `n` rounds, before the part `v`. -/
structure NamePart (n : Nat) (p u v : List UInt8) : Prop where
  eq : p = u ++ v
  le : u.length ≤ n
  dot : dot ∉ u
  slash : slash ∉ u
  stops : u.length = n ∨ v = [] ∨ ∃ v', v = ArmOs.dot :: v'

theorem NamePart.cons (h : NamePart n p u v) (hdot : c ≠ ArmOs.dot) (hslash : c ≠ ArmOs.slash) :
    NamePart (n + 1) (c :: p) (c :: u) v where
  eq := by rw [h.eq, List.cons_append]
  le := Nat.succ_le_succ h.le
  dot := by simpa using ⟨hdot.symm, h.dot⟩
  slash := by simpa using ⟨hslash.symm, h.slash⟩
  stops := h.stops.imp_left (congrArg Nat.succ)

theorem NamePart.of_cons (h : NamePart (n + 1) (c :: p) (c :: u) v) : NamePart n p u v where
  eq := (List.cons.inj h.eq).2
  le := Nat.le_of_succ_le_succ h.le
  dot := fun hd => h.dot (List.mem_cons_of_mem c hd)
  slash := fun hs => h.slash (List.mem_cons_of_mem c hs)
  stops := h.stops.imp_left Nat.succ.inj

theorem splitName_iff (hp : StringAt path i p) (hi : q.length = i) (hn : i + n = maxFilename) :
    splitName path n i (pad space maxFilename q) = some (j, name) ↔
      ∃ u v, NamePart n p u v ∧ j = i + u.length ∧ name = pad space maxFilename (q ++ u) := by
  induction n generalizing i p q with
  | zero =>
      simp only [splitName, Option.some.injEq, Prod.mk.injEq]
      constructor
      · rintro ⟨rfl, rfl⟩
        exact ⟨[], p, ⟨rfl, Nat.le_refl 0, List.not_mem_nil, List.not_mem_nil, .inl rfl⟩, rfl, by rw [List.append_nil]⟩
      · rintro ⟨u, v, hu, rfl, rfl⟩
        obtain rfl := List.length_eq_zero_iff.mp (Nat.le_zero.mp hu.le)
        exact ⟨rfl, by rw [List.append_nil]⟩
  | succ n ih =>
      rw [splitName]
      cases p with
      | nil =>
          have hzero : path i = 0 := hp
          rw [if_neg (by simp [hzero])]
          simp only [Option.some.injEq, Prod.mk.injEq]
          constructor
          · rintro ⟨rfl, rfl⟩
            exact ⟨[], [], ⟨rfl, Nat.zero_le _, List.not_mem_nil, List.not_mem_nil, .inr (.inl rfl)⟩, rfl,
              by rw [List.append_nil]⟩
          · rintro ⟨u, v, hu, rfl, rfl⟩
            obtain ⟨rfl, -⟩ := List.append_eq_nil_iff.mp hu.eq.symm
            exact ⟨rfl, by rw [List.append_nil]⟩
      | cons c p =>
          obtain ⟨hc, hne, hp⟩ := hp
          by_cases hdot : c = dot
          · rw [if_neg (by simp [hc, hdot])]
            subst hdot
            simp only [Option.some.injEq, Prod.mk.injEq]
            constructor
            · rintro ⟨rfl, rfl⟩
              exact ⟨[], dot :: p, ⟨rfl, Nat.zero_le _, List.not_mem_nil, List.not_mem_nil, .inr (.inr ⟨p, rfl⟩)⟩, rfl,
                by rw [List.append_nil]⟩
            · rintro ⟨u, v, hu, rfl, rfl⟩
              cases u with
              | nil => exact ⟨rfl, by rw [List.append_nil]⟩
              | cons d u =>
                  have hd : dot = d := (List.cons.inj hu.eq).1
                  exact absurd (hd ▸ List.mem_cons_self) hu.dot
          · rw [if_pos (by simp [hc, hdot, hne])]
            by_cases hslash : c = slash
            · rw [if_pos (by rw [hc, hslash])]
              subst hslash
              refine ⟨nofun, ?_⟩
              rintro ⟨u, v, hu, -, -⟩
              cases u with
              | nil =>
                  rcases hu.stops with hlen | hnil | ⟨v', hv⟩
                  · cases hlen
                  · subst hnil
                    exact absurd hu.eq nofun
                  · subst hv
                    exact absurd (List.cons.inj hu.eq).1 hdot
              | cons d u =>
                  have hd : slash = d := (List.cons.inj hu.eq).1
                  exact absurd (hd ▸ List.mem_cons_self) hu.slash
            · rw [if_neg (by rw [hc]; exact hslash), hc]
              have hset : (pad space maxFilename q).set i c = pad space maxFilename (q ++ [c]) := by
                rw [← hi]
                exact pad_set (by omega)
              rw [hset, ih hp (by simp [hi]) (by omega)]
              constructor
              · rintro ⟨u, v, hu, rfl, rfl⟩
                exact ⟨c :: u, v, hu.cons hdot hslash, by rw [List.length_cons]; omega, by simp⟩
              · rintro ⟨u, v, hu, rfl, rfl⟩
                cases u with
                | nil =>
                    rcases hu.stops with hlen | hnil | ⟨v', hv⟩
                    · cases hlen
                    · subst hnil
                      exact absurd hu.eq nofun
                    · subst hv
                      exact absurd (List.cons.inj hu.eq).1 hdot
                | cons d u =>
                    obtain rfl : c = d := (List.cons.inj hu.eq).1
                    exact ⟨u, v, hu.of_cons, by rw [List.length_cons]; omega, by simp⟩

/-! ## The extension -/

/-- The part `u` of a path that the second loop takes in `n` rounds, before the part `v`. -/
structure ExtPart (n : Nat) (p u v : List UInt8) : Prop where
  eq : p = u ++ v
  le : u.length ≤ n
  slash : slash ∉ u
  stops : u.length = n ∨ v = []

theorem splitExt_iff (hp : StringAt path i p) (hi : q.length = k) (hn : k + n = maxFileExtName) :
    splitExt path n i k (pad space maxFileExtName q) = some (j, ext) ↔
      ∃ u v, ExtPart n p u v ∧ j = i + u.length ∧ ext = pad space maxFileExtName (q ++ u) := by
  induction n generalizing i k p q with
  | zero =>
      simp only [splitExt, Option.some.injEq, Prod.mk.injEq]
      constructor
      · rintro ⟨rfl, rfl⟩
        exact ⟨[], p, ⟨rfl, Nat.le_refl 0, List.not_mem_nil, .inl rfl⟩, rfl, by rw [List.append_nil]⟩
      · rintro ⟨u, v, hu, rfl, rfl⟩
        obtain rfl := List.length_eq_zero_iff.mp (Nat.le_zero.mp hu.le)
        exact ⟨rfl, by rw [List.append_nil]⟩
  | succ n ih =>
      rw [splitExt]
      cases p with
      | nil =>
          have hzero : path i = 0 := hp
          rw [if_neg (by simp [hzero])]
          simp only [Option.some.injEq, Prod.mk.injEq]
          constructor
          · rintro ⟨rfl, rfl⟩
            exact ⟨[], [], ⟨rfl, Nat.zero_le _, List.not_mem_nil, .inr rfl⟩, rfl, by rw [List.append_nil]⟩
          · rintro ⟨u, v, hu, rfl, rfl⟩
            obtain ⟨rfl, -⟩ := List.append_eq_nil_iff.mp hu.eq.symm
            exact ⟨rfl, by rw [List.append_nil]⟩
      | cons c p =>
          obtain ⟨hc, hne, hp⟩ := hp
          have hstart : ∀ {u v}, ExtPart (n + 1) (c :: p) u v → ∃ u', u = c :: u' := by
            intro u v hu
            cases u with
            | nil =>
                cases hu.stops with
                | inl hlen => cases hlen
                | inr hnil =>
                    subst hnil
                    exact absurd hu.eq nofun
            | cons d u => exact ⟨u, by rw [(List.cons.inj hu.eq).1]⟩
          rw [if_pos (by rw [hc]; exact hne)]
          by_cases hslash : c = slash
          · rw [if_pos (by rw [hc, hslash])]
            refine ⟨nofun, ?_⟩
            rintro ⟨u, v, hu, -, -⟩
            obtain ⟨u', rfl⟩ := hstart hu
            exact absurd (hslash ▸ List.mem_cons_self) hu.slash
          · rw [if_neg (by rw [hc]; exact hslash), hc]
            have hset : (pad space maxFileExtName q).set k c = pad space maxFileExtName (q ++ [c]) := by
              rw [← hi]
              exact pad_set (by omega)
            rw [hset, ih hp (by simp [hi]) (by omega)]
            constructor
            · rintro ⟨u, v, hu, rfl, rfl⟩
              refine ⟨c :: u, v, ⟨by rw [hu.eq, List.cons_append], Nat.succ_le_succ hu.le, ?_,
                hu.stops.imp_left (congrArg Nat.succ)⟩, by rw [List.length_cons]; omega, by simp⟩
              exact fun hs => (List.mem_cons.mp hs).elim (fun he => hslash he.symm) hu.slash
            · rintro ⟨u, v, hu, rfl, rfl⟩
              obtain ⟨u', rfl⟩ := hstart hu
              exact ⟨u', v, ⟨(List.cons.inj hu.eq).2, Nat.le_of_succ_le_succ hu.le,
                fun hs => hu.slash (List.mem_cons_of_mem c hs), hu.stops.imp_left Nat.succ.inj⟩,
                by rw [List.length_cons]; omega, by simp⟩

/-! ## The whole path -/

/-- The path `p` is the name `n` alone, or the name `n`, a dot and the extension `e`. -/
structure IsPath (p n e : List UInt8) : Prop where
  name : n.length ≤ maxFilename
  dot : dot ∉ n
  slash : slash ∉ n
  parts : p = n ∧ e = [] ∨ p = n ++ ArmOs.dot :: e ∧ e.length ≤ maxFileExtName ∧ ArmOs.slash ∉ e

def blankName : List UInt8 := List.replicate 8 space
def blankExt : List UInt8 := List.replicate 3 space

theorem splitPath_eq_some {r : List UInt8 × List UInt8} :
    splitPath path name ext = some r ↔
      ∃ i n j e, splitName path maxFilename 0 name = some (i, n) ∧
        (if path i = dot then splitExt path maxFileExtName (i + 1) 0 ext else some (i, ext)) = some (j, e) ∧
        path j = 0 ∧ r = (n, e) := by
  have hend : ∀ (j : Nat) (n e : List UInt8), (if path j ≠ 0 then none else some (n, e)) = some r ↔
      path j = 0 ∧ r = (n, e) := fun j n e => by
    by_cases hj : path j = 0
    · simp [hj, eq_comm]
    · simp [hj]
  unfold splitPath
  simp only [Option.bind_eq_bind, Option.bind_eq_some_iff, Prod.exists]
  refine exists_congr fun i => exists_congr fun n => ?_
  by_cases hi : path i = dot
  · simp only [if_pos hi, Option.bind_eq_some_iff, Prod.exists, hend]
    exact ⟨fun ⟨hn, j, e, he, hr⟩ => ⟨j, e, hn, he, hr⟩, fun ⟨j, e, hn, he, hr⟩ => ⟨hn, j, e, he, hr⟩⟩
  · simp only [if_neg hi, Option.bind_some, hend]
    constructor
    · rintro ⟨hn, hr⟩
      exact ⟨i, ext, hn, rfl, hr⟩
    · rintro ⟨j, e, hn, he, hr⟩
      cases he
      exact ⟨hn, hr⟩

theorem splitPath_iff (hp : StringAt path 0 p) :
    splitPath path blankName blankExt = some (name, ext) ↔
      ∃ n e, IsPath p n e ∧ name = pad space maxFilename n ∧ ext = pad space maxFileExtName e := by
  have hname : blankName = pad space maxFilename [] := (pad_nil space maxFilename).symm
  have hext : blankExt = pad space maxFileExtName [] := (pad_nil space maxFileExtName).symm
  have hdot : ArmOs.dot ≠ 0 := by decide
  have hempty := Nat.zero_add maxFilename
  rw [hname, hext, splitPath_eq_some]
  constructor
  · rintro ⟨j, name', j', ext', hsplit, hsecond, hzero, hr⟩
    obtain ⟨rfl, rfl⟩ := Prod.mk.inj hr
    obtain ⟨n, v, hn, rfl, rfl⟩ := (splitName_iff hp List.length_nil hempty).mp hsplit
    have hv := (hn.eq ▸ hp).append
    split at hsecond
    · rename_i hd
      obtain ⟨v', rfl⟩ := hv.eq_cons (by rw [hd]; exact hdot)
      rw [hd] at hv
      obtain ⟨e, w, he, rfl, rfl⟩ := (splitExt_iff hv.2.2 List.length_nil (Nat.zero_add maxFileExtName)).mp hsecond
      obtain rfl := (he.eq ▸ hv.2.2).append.eq_nil hzero
      have hparts : p = n ++ dot :: e := by
        rw [hn.eq, hd, he.eq, List.append_nil]
      exact ⟨n, e, ⟨hn.le, hn.dot, hn.slash, .inr ⟨hparts, he.le, he.slash⟩⟩, rfl, rfl⟩
    · obtain ⟨rfl, rfl⟩ := Prod.mk.inj (Option.some.inj hsecond)
      obtain rfl := hv.eq_nil hzero
      exact ⟨n, [], ⟨hn.le, hn.dot, hn.slash, .inl ⟨by rw [hn.eq, List.append_nil], rfl⟩⟩, rfl, rfl⟩
  · rintro ⟨n, e, hpath, rfl, rfl⟩
    cases hpath.parts with
    | inl halone =>
        obtain ⟨rfl, rfl⟩ := halone
        have hn : NamePart maxFilename p p [] :=
          ⟨(List.append_nil p).symm, hpath.name, hpath.dot, hpath.slash, .inr (.inl rfl)⟩
        have hzero : path (0 + p.length) = 0 := StringAt.append (v := []) (by rwa [List.append_nil])
        refine ⟨_, _, 0 + p.length, _, (splitName_iff hp List.length_nil hempty).mpr ⟨p, [], hn, rfl, rfl⟩, if_neg ?_, hzero, rfl⟩
        rw [hzero]
        exact hdot.symm
    | inr hboth =>
        obtain ⟨rfl, hle, hslash⟩ := hboth
        have hn : NamePart maxFilename (n ++ dot :: e) n (dot :: e) :=
          ⟨rfl, hpath.name, hpath.dot, hpath.slash, .inr (.inr ⟨e, rfl⟩)⟩
        have he : ExtPart maxFileExtName e e [] := ⟨(List.append_nil e).symm, hle, hslash, .inr rfl⟩
        have hv := hp.append
        have hzero : path (0 + n.length + 1 + e.length) = 0 := StringAt.append (v := []) (by simpa using hv.2.2)
        exact ⟨_, _, _, _, (splitName_iff hp List.length_nil hempty).mpr ⟨n, dot :: e, hn, rfl, rfl⟩, (if_pos hv.1).trans
          ((splitExt_iff hv.2.2 List.length_nil (Nat.zero_add maxFileExtName)).mpr ⟨e, [], he, rfl, rfl⟩), hzero, rfl⟩

/-! ## The bytes that are read -/

/-- The indices at which the first loop reads the path. -/
def splitNameReads (path : Nat → UInt8) : (n i : Nat) → List Nat
  | 0, _ => []
  | n + 1, i =>
      if path i ≠ dot ∧ path i ≠ 0 then
        if path i = slash then [i] else i :: splitNameReads path n (i + 1)
      else
        [i]

/-- The indices at which the second loop reads the path. -/
def splitExtReads (path : Nat → UInt8) : (n i : Nat) → List Nat
  | 0, _ => []
  | n + 1, i =>
      if path i ≠ 0 then
        if path i = slash then [i] else i :: splitExtReads path n (i + 1)
      else
        [i]

/-- The indices at which `split_path` reads the path. -/
def splitPathReads (path : Nat → UInt8) : List Nat :=
  splitNameReads path maxFilename 0 ++
    match splitName path maxFilename 0 blankName with
    | none => []
    | some (i, _) =>
        if path i = dot then
          i :: splitExtReads path maxFileExtName (i + 1) ++
            match splitExt path maxFileExtName (i + 1) 0 blankExt with
            | none => []
            | some (i, _) => [i]
        else
          [i]

theorem splitNameReads_le (hp : StringAt path i p) (hk : k ∈ splitNameReads path n i) : k ≤ i + p.length := by
  induction n generalizing i p with
  | zero => exact absurd hk List.not_mem_nil
  | succ n ih =>
      rw [splitNameReads] at hk
      split at hk
      · rename_i hc
        obtain ⟨p', rfl⟩ := hp.eq_cons hc.2
        rw [List.length_cons]
        split at hk
        · rw [List.mem_singleton.mp hk]
          omega
        · cases List.mem_cons.mp hk with
          | inl hi => omega
          | inr hk =>
              have hle := ih hp.2.2 hk
              omega
      · rw [List.mem_singleton.mp hk]
        omega

theorem splitExtReads_le (hp : StringAt path i p) (hk : k ∈ splitExtReads path n i) : k ≤ i + p.length := by
  induction n generalizing i p with
  | zero => exact absurd hk List.not_mem_nil
  | succ n ih =>
      rw [splitExtReads] at hk
      split at hk
      · rename_i hc
        obtain ⟨p', rfl⟩ := hp.eq_cons hc
        rw [List.length_cons]
        split at hk
        · rw [List.mem_singleton.mp hk]
          omega
        · cases List.mem_cons.mp hk with
          | inl hi => omega
          | inr hk =>
              have hle := ih hp.2.2 hk
              omega
      · rw [List.mem_singleton.mp hk]
        omega

theorem splitPathReads_le (hp : StringAt path 0 p) (hk : k ∈ splitPathReads path) : k ≤ p.length := by
  have hname : blankName = pad space maxFilename [] := (pad_nil space maxFilename).symm
  have hext : blankExt = pad space maxFileExtName [] := (pad_nil space maxFileExtName).symm
  cases List.mem_append.mp hk with
  | inl hk =>
      have hle := splitNameReads_le hp hk
      omega
  | inr hk =>
      split at hk
      · exact absurd hk List.not_mem_nil
      · rename_i i _ hsplit
        rw [hname] at hsplit
        obtain ⟨n, v, hn, rfl, -⟩ := (splitName_iff hp List.length_nil (Nat.zero_add maxFilename)).mp hsplit
        have hv := (hn.eq ▸ hp).append
        rw [hn.eq, List.length_append]
        split at hk
        · rename_i hd
          obtain ⟨v', rfl⟩ := hv.eq_cons (by rw [hd]; decide)
          rw [List.length_cons]
          rcases List.mem_append.mp hk with hk | hk
          · cases List.mem_cons.mp hk with
            | inl hi => omega
            | inr hk =>
                have hle := splitExtReads_le hv.2.2 hk
                omega
          · split at hk
            · exact absurd hk List.not_mem_nil
            · rename_i hsplit'
              rw [hext] at hsplit'
              obtain ⟨e, w, he, rfl, -⟩ :=
                (splitExt_iff hv.2.2 List.length_nil (Nat.zero_add maxFileExtName)).mp hsplit'
              rw [List.mem_singleton.mp hk, he.eq, List.length_append]
              omega
        · rw [List.mem_singleton.mp hk]
          omega

theorem splitName_congr (h : ∀ k ∈ splitNameReads path n i, path' k = path k) :
    splitName path' n i name = splitName path n i name := by
  induction n generalizing i name with
  | zero => rfl
  | succ n ih =>
      rw [splitNameReads] at h
      rw [splitName, splitName]
      by_cases hc : path i ≠ dot ∧ path i ≠ 0
      · rw [if_pos hc] at h
        by_cases hs : path i = slash
        · rw [if_pos hs] at h
          rw [h i (List.mem_singleton.mpr rfl), if_pos hc, if_pos hc, if_pos hs, if_pos hs]
        · rw [if_neg hs] at h
          rw [h i List.mem_cons_self, if_pos hc, if_pos hc, if_neg hs, if_neg hs]
          exact ih fun k hk => h k (List.mem_cons_of_mem i hk)
      · rw [if_neg hc] at h
        rw [h i (List.mem_singleton.mpr rfl), if_neg hc, if_neg hc]

theorem splitExt_congr (h : ∀ k ∈ splitExtReads path n i, path' k = path k) :
    splitExt path' n i j ext = splitExt path n i j ext := by
  induction n generalizing i j ext with
  | zero => rfl
  | succ n ih =>
      rw [splitExtReads] at h
      rw [splitExt, splitExt]
      by_cases hc : path i ≠ 0
      · rw [if_pos hc] at h
        by_cases hs : path i = slash
        · rw [if_pos hs] at h
          rw [h i (List.mem_singleton.mpr rfl), if_pos hc, if_pos hc, if_pos hs, if_pos hs]
        · rw [if_neg hs] at h
          rw [h i List.mem_cons_self, if_pos hc, if_pos hc, if_neg hs, if_neg hs]
          exact ih fun k hk => h k (List.mem_cons_of_mem i hk)
      · rw [if_neg hc] at h
        rw [h i (List.mem_singleton.mpr rfl), if_neg hc, if_neg hc]

/-- No other byte matters. -/
theorem splitPath_congr (h : ∀ k ∈ splitPathReads path, path' k = path k) :
    splitPath path' blankName blankExt = splitPath path blankName blankExt := by
  have hname : splitName path' maxFilename 0 blankName = splitName path maxFilename 0 blankName :=
    splitName_congr fun k hk => h k (List.mem_append_left _ hk)
  refine Option.ext fun r => ?_
  rw [splitPath_eq_some, splitPath_eq_some, hname]
  refine exists_congr fun i => exists_congr fun n => exists_congr fun j => exists_congr fun e => ?_
  refine and_congr_right fun hsplit => ?_
  have hread : ∀ k, k ∈ (if path i = dot then
      i :: splitExtReads path maxFileExtName (i + 1) ++
        match splitExt path maxFileExtName (i + 1) 0 blankExt with
        | none => []
        | some (i, _) => [i]
      else [i]) → path' k = path k := fun k hk => h k (List.mem_append_right _ (by rw [hsplit]; exact hk))
  by_cases hi : path i = dot
  · rw [if_pos hi] at hread
    have hext : splitExt path' maxFileExtName (i + 1) 0 blankExt = splitExt path maxFileExtName (i + 1) 0 blankExt :=
      splitExt_congr fun k hk => hread k (List.mem_append_left _ (List.mem_cons_of_mem i hk))
    rw [hread i (List.mem_append_left _ List.mem_cons_self), if_pos hi, if_pos hi, hext]
    refine and_congr_right fun hsecond => ?_
    rw [hread j (List.mem_append_right _ (by rw [hsecond]; exact List.mem_singleton.mpr rfl))]
  · rw [if_neg hi] at hread
    rw [hread i (List.mem_singleton.mpr rfl), if_neg hi, if_neg hi]
    refine and_congr_right fun hsecond => ?_
    cases hsecond
    rw [hread i (List.mem_singleton.mpr rfl)]

end ArmOs
