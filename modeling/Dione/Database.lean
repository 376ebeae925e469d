/-
  Dione.Database

  The block database of the node: the Go interface `database.Database`, and the
  abstract store its implementations are measured against.

  A `Store` is what a block database is for: blocks by hash, blocks by height,
  and the latest height.  A `Backend` is an implementation together with the
  proof that each of its operations does to the implementation's state what the
  store operation does to the abstract view of it.  Everything above this layer
  is proved once, for every backend.
-/

import Dione.Types
import Mathlib.Logic.Function.Basic

namespace Dione

/-- The Go interface `database.Database`, over implementation states `σ`.
    Writes return the state they leave behind next to their result: a write
    that fails need not have left the old one. -/
structure Database (σ : Type) where
  storeBlock : Block → σ → Except Err Unit × σ
  hasBlock : Bytes → σ → Except Err Bool
  fetchBlockData : Bytes → σ → Except Err (List (Option Transaction))
  fetchBlockHeader : Bytes → σ → Except Err (Option BlockHeader)
  fetchBlock : Bytes → σ → Except Err Block
  fetchBlockByHeight : UInt64 → σ → Except Err Block
  fetchBlockHeaderByHeight : UInt64 → σ → Except Err (Option BlockHeader)
  getLatestBlockHeight : σ → Except Err UInt64
  setLatestBlockHeight : UInt64 → σ → Except Err Unit × σ

/-- A lookup that reports a missing entry as `e`. -/
def orErr {α : Type} (e : Err) : Option α → Except Err α
  | some a => .ok a
  | none => .error e

@[simp] theorem orErr_eq_ok {α : Type} {e : Err} {o : Option α} {a : α} :
    orErr e o = .ok a ↔ o = some a := by
  cases o <;> simp [orErr]

theorem orErr_injective {α : Type} {e : Err} {o o' : Option α} (h : orErr e o = orErr e o') :
    o = o' := by
  cases o <;> cases o' <;> simp_all [orErr]

/-! ## The abstract store -/

/-- Blocks by hash, blocks by height, latest height. -/
@[ext] structure Store where
  byHash : Bytes → Option Block
  byHeight : UInt64 → Option Block
  latest : Option UInt64

namespace Store

def empty : Store := ⟨fun _ => none, fun _ => none, none⟩

/-- Record `block` under its hash and its height, whatever was there before. -/
def insert (st : Store) (header : BlockHeader) (block : Block) : Store where
  byHash := Function.update st.byHash header.hash (some block)
  byHeight := Function.update st.byHeight header.height (some block)
  latest := st.latest

def setLatest (st : Store) (height : UInt64) : Store := { st with latest := some height }

@[simp] theorem insert_latest (st : Store) (hd : BlockHeader) (b : Block) :
    (st.insert hd b).latest = st.latest := rfl

theorem insert_byHeight (st : Store) (hd : BlockHeader) (b : Block) (h : UInt64) :
    (st.insert hd b).byHeight h = if h = hd.height then some b else st.byHeight h :=
  Function.update_apply ..

theorem insert_byHash (st : Store) (hd : BlockHeader) (b : Block) (h : Bytes) :
    (st.insert hd b).byHash h = if h = hd.hash then some b else st.byHash h :=
  Function.update_apply ..

@[simp] theorem setLatest_byHeight (st : Store) (h : UInt64) :
    (st.setLatest h).byHeight = st.byHeight := rfl

@[simp] theorem setLatest_byHash (st : Store) (h : UInt64) :
    (st.setLatest h).byHash = st.byHash := rfl

@[simp] theorem setLatest_latest (st : Store) (h : UInt64) :
    (st.setLatest h).latest = some h := rfl

end Store

/-! ## Backends -/

/-- A database implementation that refines `Store`.  `Wf` is the
    implementation's own representation invariant; `storable` tells which
    hashes it can use as keys (LMDB bounds the length of a key), those of
    digest length among them.  A block with
    another hash is refused, by `HasBlock` or by `StoreBlock`, and the refusal
    leaves the state alone. -/
structure Backend where
  σ : Type
  db : Database σ
  new : σ
  view : σ → Store
  Wf : σ → Prop
  storable : Bytes → Prop
  storable_short : ∀ h : Bytes, h.length ≤ 32 → storable h
  new_wf : Wf new
  view_new : view new = Store.empty
  hasBlock_eq : ∀ {s : σ} {h : Bytes}, Wf s → storable h →
    db.hasBlock h s = .ok ((view s).byHash h).isSome
  unstorable : ∀ {s : σ} {b : Block} {hd : BlockHeader}, Wf s → b.header = some hd →
    ¬ storable hd.hash → (∃ e, db.hasBlock hd.hash s = .error e) ∨
      db.hasBlock hd.hash s = .ok false ∧ ∃ e, db.storeBlock b s = (.error e, s)
  fetchBlockByHeight_eq : ∀ {s : σ} (h : UInt64), Wf s →
    db.fetchBlockByHeight h s = orErr .blockNotFound ((view s).byHeight h)
  fetchBlockHeaderByHeight_eq : ∀ {s : σ} (h : UInt64), Wf s →
    db.fetchBlockHeaderByHeight h s
      = orErr .blockNotFound (((view s).byHeight h).map Block.header)
  getLatestBlockHeight_eq : ∀ {s : σ}, Wf s →
    db.getLatestBlockHeight s = orErr .latestHeightNil (view s).latest
  storeBlock_spec : ∀ {s : σ} {b : Block} {hd : BlockHeader}, Wf s → b.header = some hd →
    storable hd.hash → (view s).byHash hd.hash = none →
    ∃ s', db.storeBlock b s = (.ok (), s') ∧ Wf s' ∧ view s' = (view s).insert hd b
  setLatestBlockHeight_spec : ∀ {s : σ} (h : UInt64), Wf s →
    ∃ s', db.setLatestBlockHeight h s = (.ok (), s') ∧ Wf s' ∧ view s' = (view s).setLatest h

end Dione
