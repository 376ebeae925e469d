/-
  Dione.Lib.Abi

  The standard encoding of a tuple of arguments, as contract calls and the hashes of
  their arguments use it: a head of one word per argument, and a tail.

  A static argument is its word.  A byte string goes to the tail, its length in front
  of it and zeros behind it up to a whole number of words; its word in the head says
  where it starts.  Two tuples of one shape with the same encoding are the same
  (`encode_inj`).
-/

import Dione.Lib.Cbor

namespace Dione.Abi

open Cbor (beBytes beValue length_beBytes beValue_beBytes)

/-- An argument: a value that takes one word, or a byte string of any length. -/
inductive Arg where
  | word (n : Nat)
  | blob (b : List UInt8)
  deriving DecidableEq, Repr

/-- A number, or the length of a byte string, has to fit into a word. -/
def Arg.Fits : Arg → Prop
  | .word n => n < 2 ^ 256
  | .blob b => b.length < 2 ^ 256

def Arg.isBlob : Arg → Bool
  | .word _ => false
  | .blob _ => true

/-- How many zeros fill the last word of `len` bytes. -/
def padding (len : Nat) : Nat := (32 - len % 32) % 32

/-- A byte string in the tail. -/
def tail (b : List UInt8) : List UInt8 :=
  beBytes 32 b.length ++ (b ++ List.replicate (padding b.length) 0)

/-- The head; the next byte string starts at `offset`. -/
def heads : Nat → List Arg → List UInt8
  | _, [] => []
  | offset, .word n :: args => beBytes 32 n ++ heads offset args
  | offset, .blob b :: args => beBytes 32 offset ++ heads (offset + (tail b).length) args

/-- The tails of all byte strings, in order. -/
def tails : List Arg → List UInt8
  | [] => []
  | .word _ :: args => tails args
  | .blob b :: args => tail b ++ tails args

def encode (args : List Arg) : List UInt8 := heads (32 * args.length) args ++ tails args

/-! ## The encoding tells its arguments apart -/

theorem length_heads (offset : Nat) (args : List Arg) :
    (heads offset args).length = 32 * args.length := by
  induction args generalizing offset with
  | nil => rfl
  | cons arg args ih =>
      cases arg with
      | word n =>
          rw [heads, List.length_append, length_beBytes, ih, List.length_cons]
          omega
      | blob b =>
          rw [heads, List.length_append, length_beBytes, ih, List.length_cons]
          omega

theorem beBytes_word_inj {n m : Nat} (hn : n < 2 ^ 256) (hm : m < 2 ^ 256)
    (h : beBytes 32 n = beBytes 32 m) : n = m := by
  have hword : (256 : Nat) ^ 32 = 2 ^ 256 := by decide
  have hvalue := congrArg beValue h
  rwa [beValue_beBytes (by rwa [hword]), beValue_beBytes (by rwa [hword])] at hvalue

/-- A byte string in front of other tails ends where its length says. -/
theorem tail_append_inj {b c rest rest' : List UInt8} (hb : b.length < 2 ^ 256)
    (hc : c.length < 2 ^ 256) (h : tail b ++ rest = tail c ++ rest') : b = c ∧ rest = rest' := by
  have hlengths : (beBytes 32 b.length).length = (beBytes 32 c.length).length := by
    rw [length_beBytes, length_beBytes]
  simp only [tail, List.append_assoc] at h
  obtain ⟨hword, hbody⟩ := List.append_inj h hlengths
  have hlen : b.length = c.length := beBytes_word_inj hb hc hword
  obtain ⟨hbc, hpadded⟩ := List.append_inj hbody hlen
  have hpadding : (List.replicate (padding b.length) (0 : UInt8)).length
      = (List.replicate (padding c.length) (0 : UInt8)).length := by rw [hlen]
  exact ⟨hbc, (List.append_inj hpadded hpadding).2⟩

/-- Head and tails give all arguments back.  The offsets in the head are not needed
    for it: the byte strings follow one another in the order of the arguments. -/
theorem args_inj {args args' : List Arg} {offset : Nat}
    (hshape : args.map Arg.isBlob = args'.map Arg.isBlob)
    (hfits : ∀ arg ∈ args, arg.Fits) (hfits' : ∀ arg ∈ args', arg.Fits)
    (hheads : heads offset args = heads offset args') (htails : tails args = tails args') :
    args = args' := by
  induction args generalizing args' offset with
  | nil =>
      cases args' with
      | nil => rfl
      | cons arg args' => cases hshape
  | cons arg args ih =>
      cases args' with
      | nil => cases hshape
      | cons arg' args' =>
          rw [List.map_cons, List.map_cons, List.cons.injEq] at hshape
          obtain ⟨hkind, hshape⟩ := hshape
          obtain ⟨harg, hargs⟩ := List.forall_mem_cons.mp hfits
          obtain ⟨harg', hargs'⟩ := List.forall_mem_cons.mp hfits'
          have hword : ∀ n m : Nat, (beBytes 32 n).length = (beBytes 32 m).length := by
            intro n m
            rw [length_beBytes, length_beBytes]
          cases arg with
          | word n =>
              cases arg' with
              | blob c => cases hkind
              | word m =>
                  obtain ⟨hnm, hrest⟩ := List.append_inj hheads (hword n m)
                  rw [beBytes_word_inj harg harg' hnm]
                  exact congrArg _ (ih hshape hargs hargs' hrest htails)
          | blob b =>
              cases arg' with
              | word m => cases hkind
              | blob c =>
                  obtain ⟨rfl, hmore⟩ := tail_append_inj harg harg' htails
                  -- the same byte string, so the next ones start at the same place
                  obtain ⟨-, hrest⟩ := List.append_inj hheads (hword offset offset)
                  exact congrArg _ (ih hshape hargs hargs' hrest hmore)

theorem encode_inj {args args' : List Arg} (hshape : args.map Arg.isBlob = args'.map Arg.isBlob)
    (hfits : ∀ arg ∈ args, arg.Fits) (hfits' : ∀ arg ∈ args', arg.Fits)
    (h : encode args = encode args') : args = args' := by
  have hcount : args.length = args'.length := by
    have hmap := congrArg List.length hshape
    rwa [List.length_map, List.length_map] at hmap
  unfold encode at h
  rw [hcount] at h
  have hlengths : (heads (32 * args'.length) args).length
      = (heads (32 * args'.length) args').length := by
    rw [length_heads, length_heads, hcount]
  obtain ⟨hheads, htails⟩ := List.append_inj h hlengths
  exact args_inj hshape hfits hfits' hheads htails

end Dione.Abi
