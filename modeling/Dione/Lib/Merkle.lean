/-
  Dione.Lib.Merkle

  Binary Merkle trees over a hash of byte strings, in the layout of
  `wealdtech/go-merkletree`: the leaves are the hashes of the data, filled up with
  `pad` to a power of two; a salted leaf hashes the data followed by its index in
  four bytes.

    * `climb` recomputes the root from a leaf and the hashes beside its path;
    * `climb_path`: for the tree's own path that is the root of the tree;
    * `climb_injective`: two leaves cannot get to one root along the same path if
      the hash has no collisions, so that (`climb_salt_ne`) a proof does not do for
      the salted and the unsalted leaf alike;
    * `verify_inj`: under one root a position holds one leaf with one path, if the
      strings hashed for two proofs of it have no collision among them;
    * `data_eq_of_root_eq`: the root determines the data, trees of different size
      included, if the strings hashed for the two trees have no collision among them.
      What tells a leaf from an inner node is the length of what is hashed.
-/

import Mathlib.Algebra.Ring.Nat
import Mathlib.Data.Nat.Log
import Mathlib.Data.Set.Function

namespace Dione.Merkle

variable (H : List UInt8 → List UInt8)

/-- A leaf's index in four bytes, most significant first. -/
def indexBytes (i : Nat) : List UInt8 :=
  [UInt8.ofNat (i / 2 ^ 24), UInt8.ofNat (i / 2 ^ 16), UInt8.ofNat (i / 2 ^ 8), UInt8.ofNat i]

/-- What is hashed for one piece of data. -/
def leafInput (salt : Bool) (i : Nat) (data : List UInt8) : List UInt8 :=
  if salt then data ++ indexBytes i else data

/-- The hash of one piece of data. -/
def leaf (salt : Bool) (i : Nat) (data : List UInt8) : List UInt8 := H (leafInput salt i data)

/-- From a node at position `i` of its level up to the root. -/
def climb (node : List UInt8) : Nat → List (List UInt8) → List UInt8
  | _, [] => node
  | i, beside :: rest =>
    climb (if i % 2 = 0 then H (node ++ beside) else H (beside ++ node)) (i / 2) rest

/-- `VerifyProofUsing`: the root recomputed from the data is one of the `pollard`. -/
def verify (data : List UInt8) (salt : Bool) (hashes : List (List UInt8)) (index : Nat)
    (pollard : List (List UInt8)) : Bool :=
  climb H (leaf H salt index data) index hashes ∈ pollard

/-! ## Trees -/

/-- The level above a level. -/
def pairUp : List (List UInt8) → List (List UInt8)
  | x :: y :: rest => H (x ++ y) :: pairUp rest
  | _ => []

/-- The root above a level of `2 ^ k` nodes. -/
def root : Nat → List (List UInt8) → List UInt8
  | 0, level => level.headD []
  | k + 1, level => root k (pairUp H level)

/-- The hashes beside the path from position `i` of a level of `2 ^ k` nodes to the
    root, bottom up. -/
def path : Nat → List (List UInt8) → Nat → List (List UInt8)
  | 0, _, _ => []
  | k + 1, level, i =>
    level.getD (if i % 2 = 0 then i + 1 else i - 1) [] :: path k (pairUp H level) (i / 2)

/-- The number of levels above the leaves. -/
def depth (data : List (List UInt8)) : Nat := Nat.clog 2 data.length

/-- The leaves. -/
def leaves (pad : List UInt8) (salt : Bool) (data : List (List UInt8)) : List (List UInt8) :=
  data.mapIdx (leaf H salt) ++ List.replicate (2 ^ depth data - data.length) pad

theorem getElem?_pairUp {level : List (List UInt8)} {j : Nat} {x y : List UInt8}
    (hx : level[2 * j]? = some x) (hy : level[2 * j + 1]? = some y) :
    (pairUp H level)[j]? = some (H (x ++ y)) := by
  induction level using pairUp.induct generalizing j with
  | case1 a b rest ih =>
      cases j with
      | zero =>
          obtain rfl : a = x := by simpa using hx
          obtain rfl : b = y := by simpa using hy
          rfl
      | succ j => exact ih (j := j) hx hy
  | case2 level hshort =>
      -- fewer than two nodes have no second one
      rcases level with _ | ⟨a, _ | ⟨b, rest⟩⟩
      · simp at hx
      · simp at hy
      · exact absurd rfl (hshort a b rest)

theorem length_pairUp {level : List (List UInt8)} {k : Nat} (h : level.length = 2 ^ (k + 1)) :
    (pairUp H level).length = 2 ^ k := by
  have hhalf : ∀ l : List (List UInt8), (pairUp H l).length = l.length / 2 := by
    intro l
    induction l using pairUp.induct with
    | case1 a b rest ih =>
        rw [pairUp, List.length_cons, ih, List.length_cons, List.length_cons]
        omega
    | case2 l hshort =>
        rcases l with _ | ⟨a, _ | ⟨b, rest⟩⟩
        · rfl
        · simp [pairUp]
        · exact absurd rfl (hshort a b rest)
  rw [hhalf, h, Nat.pow_succ]
  omega

/-- The path of a tree leads to its root. -/
theorem climb_path {k : Nat} {level : List (List UInt8)} (hlength : level.length = 2 ^ k) {i : Nat}
    {x : List UInt8} (hx : level[i]? = some x) :
    climb H x i (path H k level i) = root H k level := by
  induction k generalizing level i x with
  | zero =>
      obtain ⟨hi, -⟩ := List.getElem?_eq_some_iff.mp hx
      have hzero : i = 0 := by omega
      subst hzero
      show x = level.headD []
      rw [List.headD_eq_head?_getD, List.head?_eq_getElem?, hx]
      rfl
  | succ k ih =>
      obtain ⟨hi, -⟩ := List.getElem?_eq_some_iff.mp hx
      have hpow : 2 ^ (k + 1) = 2 * 2 ^ k := by rw [Nat.pow_succ, Nat.mul_comm]
      rw [path, climb, root]
      refine ih (length_pairUp H hlength) ?_
      -- the sibling is there, to the right of an even and to the left of an odd position
      by_cases heven : i % 2 = 0
      · have hbound : i + 1 < level.length := by omega
        have hy := List.getElem?_eq_getElem hbound
        rw [if_pos heven, if_pos heven, List.getD_eq_getElem?_getD, hy]
        have hi2 : 2 * (i / 2) = i := by omega
        exact getElem?_pairUp H (by rw [hi2]; exact hx) (by rw [hi2]; exact hy)
      · have hbound : i - 1 < level.length := by omega
        have hy := List.getElem?_eq_getElem hbound
        rw [if_neg heven, if_neg heven, List.getD_eq_getElem?_getD, hy]
        have hi2 : 2 * (i / 2) = i - 1 := by omega
        have hi3 : 2 * (i / 2) + 1 = i := by omega
        exact getElem?_pairUp H (by rw [hi2]; exact hy) (by rw [hi3]; exact hx)

theorem length_leaves {pad : List UInt8} {salt : Bool} (data : List (List UInt8)) :
    (leaves H pad salt data).length = 2 ^ depth data := by
  have hle : data.length ≤ 2 ^ depth data := Nat.le_pow_clog (by decide) _
  rw [leaves, List.length_append, List.length_mapIdx, List.length_replicate]
  omega

/-- A tree verifies its own proofs, under its own salt flag. -/
theorem verify_path {pad : List UInt8} {salt : Bool} {data : List (List UInt8)} {i : Nat}
    {d : List UInt8} (hd : data[i]? = some d) :
    verify H d salt (path H (depth data) (leaves H pad salt data) i) i
      [root H (depth data) (leaves H pad salt data)] = true := by
  obtain ⟨hi, -⟩ := List.getElem?_eq_some_iff.mp hd
  have hleaf : (leaves H pad salt data)[i]? = some (leaf H salt i d) := by
    rw [leaves, List.getElem?_append_left (by simpa using hi), List.getElem?_mapIdx, hd]
    rfl
  simp only [verify, climb_path H (length_leaves H data) hleaf, List.mem_singleton, decide_true]

/-! ## Without collisions -/

variable {H}

theorem climb_injective (hinj : Function.Injective H) {x y : List UInt8} {i : Nat}
    {hashes : List (List UInt8)} (h : climb H x i hashes = climb H y i hashes) : x = y := by
  induction hashes generalizing x y i with
  | nil => exact h
  | cons beside rest ih =>
      have hnode := ih h
      split at hnode
      · exact List.append_cancel_right (hinj hnode)
      · exact List.append_cancel_left (hinj hnode)

/-- What verifies with salt does not verify without. -/
theorem climb_salt_ne (hinj : Function.Injective H) (data : List UInt8) (i : Nat)
    (hashes : List (List UInt8)) :
    climb H (leaf H true i data) i hashes ≠ climb H (leaf H false i data) i hashes := by
  intro h
  have hleaf := hinj (climb_injective hinj h)
  have hlength := congrArg List.length hleaf
  simp [leafInput, indexBytes] at hlength

/-! ## Two proofs of one position -/

/-- A node and the one beside it, the left one first. -/
def joined (i : Nat) (node beside : List UInt8) : List UInt8 :=
  if i % 2 = 0 then node ++ beside else beside ++ node

variable (H) in
/-- What is hashed from a node at position `i` of its level up to the root. -/
def climbInputs (node : List UInt8) : Nat → List (List UInt8) → List (List UInt8)
  | _, [] => []
  | i, beside :: rest =>
    joined i node beside :: climbInputs (H (joined i node beside)) (i / 2) rest

variable (H) in
/-- What `verify` hashes. -/
def verifyInputs (data : List UInt8) (salt : Bool) (hashes : List (List UInt8)) (index : Nat) :
    List (List UInt8) :=
  leafInput salt index data :: climbInputs H (leaf H salt index data) index hashes

theorem climb_cons (node : List UInt8) (i : Nat) (beside : List UInt8) (rest : List (List UInt8)) :
    climb H node i (beside :: rest) = climb H (H (joined i node beside)) (i / 2) rest := by
  rw [climb, joined, apply_ite H]

theorem leafInput_inj {salt : Bool} {i : Nat} {data data' : List UInt8}
    (h : leafInput salt i data = leafInput salt i data') : data = data' := by
  cases salt with
  | false => exact h
  | true => exact List.append_cancel_right h

/-- A node of known width is cut out of the pair again, on whichever side it stands. -/
theorem joined_inj {i : Nat} {x y beside beside' : List UInt8} (hlength : x.length = y.length)
    (h : joined i x beside = joined i y beside') : x = y ∧ beside = beside' := by
  unfold joined at h
  split at h
  · exact List.append_inj h hlength
  · exact (List.append_inj' h hlength).symm

/-- From one position two paths of one length that lead to one root are the same. -/
theorem climb_inj {w : Nat} (hwidth : ∀ b, (H b).length = w) {S : Set (List UInt8)}
    (hinj : Set.InjOn H S) {x y : List UInt8} (hx : x.length = w) (hy : y.length = w) {i : Nat}
    {hashes hashes' : List (List UInt8)} (hlength : hashes.length = hashes'.length)
    (hin : ∀ b ∈ climbInputs H x i hashes, b ∈ S) (hin' : ∀ b ∈ climbInputs H y i hashes', b ∈ S)
    (h : climb H x i hashes = climb H y i hashes') : x = y ∧ hashes = hashes' := by
  induction hashes generalizing x y i hashes' with
  | nil =>
      obtain rfl := List.length_eq_zero_iff.mp hlength.symm
      exact ⟨h, rfl⟩
  | cons beside rest ih =>
      cases hashes' with
      | nil => cases hlength
      | cons beside' rest' =>
          rw [climb_cons, climb_cons] at h
          obtain ⟨hhere, habove⟩ := List.forall_mem_cons.mp hin
          obtain ⟨hhere', habove'⟩ := List.forall_mem_cons.mp hin'
          obtain ⟨hnode, rfl⟩ := ih (hwidth _) (hwidth _) (Nat.succ.inj hlength) habove habove' h
          obtain ⟨rfl, rfl⟩ := joined_inj (hx.trans hy.symm) (hinj hhere hhere' hnode)
          exact ⟨rfl, rfl⟩

theorem verify_inj {w : Nat} (hwidth : ∀ b, (H b).length = w) {S : Set (List UInt8)}
    (hinj : Set.InjOn H S) {salt : Bool} {data data' root : List UInt8}
    {hashes hashes' : List (List UInt8)} {index : Nat} (hlength : hashes.length = hashes'.length)
    (hin : ∀ b ∈ verifyInputs H data salt hashes index, b ∈ S)
    (hin' : ∀ b ∈ verifyInputs H data' salt hashes' index, b ∈ S)
    (h : verify H data salt hashes index [root] = true)
    (h' : verify H data' salt hashes' index [root] = true) : data = data' ∧ hashes = hashes' := by
  obtain ⟨hleaf, hpath⟩ := List.forall_mem_cons.mp hin
  obtain ⟨hleaf', hpath'⟩ := List.forall_mem_cons.mp hin'
  have hroot := List.mem_singleton.mp (of_decide_eq_true h)
  have hroot' := List.mem_singleton.mp (of_decide_eq_true h')
  obtain ⟨hnode, rfl⟩ := climb_inj hwidth hinj (hwidth _) (hwidth _) hlength hpath hpath'
    (hroot.trans hroot'.symm)
  exact ⟨leafInput_inj (hinj hleaf hleaf' hnode), rfl⟩

/-! ## Roots and data -/

/-- What is hashed to get from a level to the next. -/
def pairs : List (List UInt8) → List (List UInt8)
  | x :: y :: rest => (x ++ y) :: pairs rest
  | _ => []

variable (H) in
/-- What is hashed above a level of `2 ^ k` nodes. -/
def pairsAbove : Nat → List (List UInt8) → List (List UInt8)
  | 0, _ => []
  | k + 1, level => pairs level ++ pairsAbove k (pairUp H level)

/-- What is hashed for the leaves. -/
def leafInputs (salt : Bool) (data : List (List UInt8)) : List (List UInt8) :=
  data.mapIdx (leafInput salt)

variable (H) in
/-- `H` has digests of `w` bytes, and among the strings `S` there are no two with the same
    digest and none with the digest `pad`. -/
structure Binding (w : Nat) (pad : List UInt8) (S : Set (List UInt8)) : Prop where
  length : ∀ b, (H b).length = w
  length_pad : pad.length = w
  injOn : Set.InjOn H S
  ne_pad : ∀ b ∈ S, H b ≠ pad

variable {w : Nat} {pad : List UInt8} {salt : Bool} {S : Set (List UInt8)}

theorem pairUp_eq_map (level : List (List UInt8)) : pairUp H level = (pairs level).map H := by
  induction level using pairUp.induct with
  | case1 x y rest ih => rw [pairUp, pairs, List.map_cons, ih]
  | case2 level hshort =>
      rcases level with _ | ⟨x, _ | ⟨y, rest⟩⟩
      · rfl
      · rfl
      · exact absurd rfl (hshort x y rest)

theorem eq_of_map_eq (hinj : Set.InjOn H S) {l l' : List (List UInt8)} (hl : ∀ b ∈ l, b ∈ S)
    (hl' : ∀ b ∈ l', b ∈ S) (h : l.map H = l'.map H) : l = l' := by
  induction l generalizing l' with
  | nil => exact (List.map_eq_nil_iff.mp h.symm).symm
  | cons b l ih =>
      cases l' with
      | nil => cases h
      | cons b' l' =>
          simp only [List.forall_mem_cons] at hl hl'
          obtain ⟨hb, hrest⟩ := List.cons.inj h
          rw [hinj hl.1 hl'.1 hb, ih hl.2 hl'.2 hrest]

/-- Nodes of one width are cut out of their pairs again. -/
theorem eq_of_pairs_eq {l l' : List (List UInt8)} (hl : ∀ x ∈ l, x.length = w)
    (hl' : ∀ x ∈ l', x.length = w) {n : Nat} (hn : l.length = 2 * n) (hn' : l'.length = 2 * n)
    (h : pairs l = pairs l') : l = l' := by
  induction n generalizing l l' with
  | zero => rw [List.length_eq_zero_iff.mp hn, List.length_eq_zero_iff.mp hn']
  | succ n ih =>
      match l, l' with
      | x :: y :: rest, x' :: y' :: rest' =>
          simp only [List.forall_mem_cons] at hl hl'
          simp only [pairs, List.cons.injEq] at h
          simp only [List.length_cons] at hn hn'
          obtain ⟨hx, hy⟩ := List.append_inj h.1 (hl.1.trans hl'.1.symm)
          rw [hx, hy, ih hl.2.2 hl'.2.2 (by omega) (by omega) h.2]

theorem Binding.length_of_mem_pairUp (hS : Binding H w pad S) {level : List (List UInt8)}
    {x : List UInt8} (hx : x ∈ pairUp H level) : x.length = w := by
  rw [pairUp_eq_map] at hx
  obtain ⟨b, -, rfl⟩ := List.mem_map.mp hx
  exact hS.length b

/-- One root above two levels of the same size: the levels are the same. -/
theorem Binding.level_eq (hS : Binding H w pad S) {k : Nat} {l l' : List (List UInt8)}
    (hl : ∀ x ∈ l, x.length = w) (hl' : ∀ x ∈ l', x.length = w) (hlength : l.length = 2 ^ k)
    (hlength' : l'.length = 2 ^ k) (hin : ∀ b ∈ pairsAbove H k l, b ∈ S)
    (hin' : ∀ b ∈ pairsAbove H k l', b ∈ S) (h : root H k l = root H k l') : l = l' := by
  induction k generalizing l l' with
  | zero =>
      obtain ⟨x, rfl⟩ := List.length_eq_one_iff.mp hlength
      obtain ⟨x', rfl⟩ := List.length_eq_one_iff.mp hlength'
      rw [show x = x' from h]
  | succ k ih =>
      obtain ⟨hhere, habove⟩ := List.forall_mem_append.mp hin
      obtain ⟨hhere', habove'⟩ := List.forall_mem_append.mp hin'
      have hnext := ih (fun x hx => hS.length_of_mem_pairUp hx)
        (fun x hx => hS.length_of_mem_pairUp hx) (length_pairUp H hlength)
        (length_pairUp H hlength') habove habove' h
      rw [pairUp_eq_map, pairUp_eq_map] at hnext
      have hpairs : pairs l = pairs l' := eq_of_map_eq hS.injOn hhere hhere' hnext
      rw [Nat.pow_succ, Nat.mul_comm] at hlength hlength'
      exact eq_of_pairs_eq hl hl' hlength hlength' hpairs

theorem root_add (k j : Nat) (level : List (List UInt8)) :
    root H (k + j) level = root H k ((pairUp H)^[j] level) := by
  induction j generalizing level with
  | zero => rfl
  | succ j ih =>
      rw [Function.iterate_succ_apply, ← ih]
      rfl

theorem length_iterate_pairUp {k j : Nat} {level : List (List UInt8)}
    (hlength : level.length = 2 ^ (k + j)) : ((pairUp H)^[j] level).length = 2 ^ k := by
  induction j generalizing level with
  | zero => exact hlength
  | succ j ih => exact ih (length_pairUp H hlength)

theorem mem_pairsAbove_iterate {k j : Nat} {level : List (List UInt8)} {b : List UInt8}
    (hb : b ∈ pairsAbove H k ((pairUp H)^[j] level)) : b ∈ pairsAbove H (k + j) level := by
  induction j generalizing level with
  | zero => exact hb
  | succ j ih => exact List.mem_append_right _ (ih hb)

theorem length_of_mem_pairs {level : List (List UInt8)} (hlevel : ∀ x ∈ level, x.length = w)
    {b : List UInt8} (hb : b ∈ pairs level) : b.length = 2 * w := by
  induction level using pairUp.induct with
  | case1 x y rest ih =>
      simp only [List.forall_mem_cons] at hlevel
      rcases List.mem_cons.mp hb with rfl | hb
      · rw [List.length_append, hlevel.1, hlevel.2.1]
        omega
      · exact ih hlevel.2.2 hb
  | case2 level hshort =>
      rcases level with _ | ⟨x, _ | ⟨y, rest⟩⟩
      · cases hb
      · cases hb
      · exact absurd rfl (hshort x y rest)

/-- A level above others consists of hashes of pairs. -/
theorem Binding.exists_pair (hS : Binding H w pad S) {k j : Nat} {level : List (List UInt8)}
    (hlevel : ∀ y ∈ level, y.length = w) {x : List UInt8} (hx : x ∈ (pairUp H)^[j + 1] level) :
    ∃ b ∈ pairsAbove H (k + (j + 1)) level, H b = x ∧ b.length = 2 * w := by
  induction j generalizing level with
  | zero =>
      rw [Function.iterate_one, pairUp_eq_map] at hx
      obtain ⟨b, hb, rfl⟩ := List.mem_map.mp hx
      exact ⟨b, List.mem_append_left _ hb, rfl, length_of_mem_pairs hlevel hb⟩
  | succ j ih =>
      obtain ⟨b, hb, hxb, hlength⟩ := ih (fun y hy => hS.length_of_mem_pairUp hy) hx
      exact ⟨b, List.mem_append_right _ hb, hxb, hlength⟩

/-- A tree and a deeper one have different roots: a leaf of the one would be an inner node
    of the other. -/
theorem Binding.root_ne_of_deeper (hS : Binding H w pad S) {k j : Nat} {l l' : List (List UInt8)}
    (hl : ∀ x ∈ l, x.length = w) (hl' : ∀ x ∈ l', x.length = w) (hlength : l.length = 2 ^ k)
    (hlength' : l'.length = 2 ^ (k + (j + 1))) (hin : ∀ b ∈ pairsAbove H k l, b ∈ S)
    (hin' : ∀ b ∈ pairsAbove H (k + (j + 1)) l', b ∈ S) {a : List UInt8} (ha : a ∈ S)
    (hnode : H a ∈ l) (hshort : a.length ≠ 2 * w) : root H k l ≠ root H (k + (j + 1)) l' := by
  intro h
  rw [root_add] at h
  have hmem : ∀ x ∈ (pairUp H)^[j + 1] l', x.length = w := by
    intro x hx
    obtain ⟨b, -, rfl, -⟩ := hS.exists_pair (k := k) hl' hx
    exact hS.length b
  have hlevel := hS.level_eq hl hmem hlength (length_iterate_pairUp hlength') hin
    (fun b hb => hin' b (mem_pairsAbove_iterate hb)) h
  rw [hlevel] at hnode
  obtain ⟨b, hb, heq, hpair⟩ := hS.exists_pair (k := k) hl' hnode
  rw [hS.injOn (hin' b hb) ha heq] at hpair
  exact hshort hpair

/-! ## The data of a tree -/

theorem Binding.length_of_mem_leaves (hS : Binding H w pad S) {data : List (List UInt8)}
    {x : List UInt8} (hx : x ∈ leaves H pad salt data) : x.length = w := by
  rcases List.mem_append.mp hx with hleaf | hpad
  · obtain ⟨i, d, -, rfl⟩ := List.mem_mapIdx.mp hleaf
    exact hS.length _
  · rw [List.eq_of_mem_replicate hpad]
    exact hS.length_pad

theorem leaves_eq (data : List (List UInt8)) : leaves H pad salt data
    = (leafInputs salt data).map H ++ List.replicate (2 ^ depth data - data.length) pad := by
  have hdata : data.mapIdx (leaf H salt) = (leafInputs salt data).map H := by
    apply List.ext_getElem?
    intro i
    simp only [leafInputs, List.getElem?_mapIdx, List.getElem?_map, Option.map_map]
    rfl
  rw [leaves, hdata]

/-- The leaves that are not filled in are those of the data. -/
theorem Binding.takeWhile_leaves (hS : Binding H w pad S) {data : List (List UInt8)}
    (hin : ∀ b ∈ leafInputs salt data, b ∈ S) :
    (leaves H pad salt data).takeWhile (fun x => decide (x ≠ pad))
      = (leafInputs salt data).map H := by
  have hdata : ∀ x ∈ (leafInputs salt data).map H, decide (x ≠ pad) = true := by
    intro x hx
    obtain ⟨b, hb, rfl⟩ := List.mem_map.mp hx
    exact decide_eq_true (hS.ne_pad b (hin b hb))
  rw [leaves_eq, List.takeWhile_append_of_pos hdata, List.takeWhile_replicate]
  simp

theorem leafInputs_injective : Function.Injective (leafInputs salt) := by
  intro data data' h
  have hlength : data.length = data'.length := by
    simpa [leafInputs] using congrArg List.length h
  refine List.ext_getElem hlength fun i hi hi' => ?_
  have hi_input := congrArg (fun l => l[i]?) h
  simp only [leafInputs, List.getElem?_mapIdx, List.getElem?_eq_getElem hi,
    List.getElem?_eq_getElem hi', Option.map_some, Option.some.injEq] at hi_input
  exact leafInput_inj hi_input

variable (H w pad salt S) in
/-- A tree all of whose hashed strings are in `S`, and no leaf of which is as long as a
    pair of nodes. -/
structure HashedIn (data : List (List UInt8)) : Prop where
  ne_nil : data ≠ []
  leaf : ∀ b ∈ leafInputs salt data, b ∈ S
  leaf_length : ∀ b ∈ leafInputs salt data, b.length ≠ 2 * w
  above : ∀ b ∈ pairsAbove H (depth data) (leaves H pad salt data), b ∈ S

section Data

variable {data data' : List (List UInt8)}

theorem Binding.root_ne_of_depth_lt (hS : Binding H w pad S) (hd : HashedIn H w pad salt S data)
    (hd' : HashedIn H w pad salt S data') (hlt : depth data < depth data') :
    root H (depth data) (leaves H pad salt data)
      ≠ root H (depth data') (leaves H pad salt data') := by
  obtain ⟨j, hj⟩ : ∃ j, depth data' = depth data + (j + 1) :=
    ⟨depth data' - depth data - 1, by omega⟩
  have hlength' : (leaves H pad salt data').length = 2 ^ depth data' := length_leaves H data'
  have habove' := hd'.above
  rw [hj] at hlength' habove' ⊢
  -- there is a leaf
  obtain ⟨a, rest, ha⟩ : ∃ a rest, leafInputs salt data = a :: rest := by
    obtain ⟨d, ds, rfl⟩ := List.exists_cons_of_ne_nil hd.ne_nil
    exact ⟨_, _, List.mapIdx_cons⟩
  have hmem : a ∈ leafInputs salt data := by
    rw [ha]
    exact List.mem_cons_self ..
  have hnode : H a ∈ leaves H pad salt data := by
    rw [leaves_eq]
    exact List.mem_append_left _ (List.mem_map_of_mem hmem)
  exact hS.root_ne_of_deeper (fun x hx => hS.length_of_mem_leaves hx)
    (fun x hx => hS.length_of_mem_leaves hx) (length_leaves H data) hlength' hd.above habove'
    (hd.leaf a hmem) hnode (hd.leaf_length a hmem)

/-- The root of a tree determines its data. -/
theorem Binding.data_eq_of_root_eq (hS : Binding H w pad S) (hd : HashedIn H w pad salt S data)
    (hd' : HashedIn H w pad salt S data')
    (h : root H (depth data) (leaves H pad salt data)
      = root H (depth data') (leaves H pad salt data')) : data = data' := by
  rcases lt_trichotomy (depth data) (depth data') with hlt | heq | hgt
  · exact absurd h (hS.root_ne_of_depth_lt hd hd' hlt)
  · -- the same number of leaves: all of them are the same
    have habove' := hd'.above
    rw [← heq] at h habove'
    have hleaves := hS.level_eq (fun x hx => hS.length_of_mem_leaves hx)
      (fun x hx => hS.length_of_mem_leaves hx) (length_leaves H data)
      ((length_leaves H data').trans (by rw [heq])) hd.above habove' h
    refine @leafInputs_injective salt data data' ?_
    apply eq_of_map_eq hS.injOn hd.leaf hd'.leaf
    rw [← hS.takeWhile_leaves hd.leaf, ← hS.takeWhile_leaves hd'.leaf, hleaves]
  · exact absurd h.symm (hS.root_ne_of_depth_lt hd' hd hgt)

theorem Binding.length_root (hS : Binding H w pad S) {k : Nat} {level : List (List UInt8)}
    (hlevel : ∀ x ∈ level, x.length = w) (hlength : level.length = 2 ^ k) :
    (root H k level).length = w := by
  induction k generalizing level with
  | zero =>
      obtain ⟨x, rfl⟩ := List.length_eq_one_iff.mp hlength
      exact hlevel x (List.mem_singleton_self x)
  | succ k ih => exact ih (fun x hx => hS.length_of_mem_pairUp hx) (length_pairUp H hlength)

end Data

end Dione.Merkle
