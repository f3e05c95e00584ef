/-
# The global deadlock detector

`gdddetector.c` gathers the waits of all segments into one context. Each segment has a
graph of its own, a vertex is a distributed transaction, and an edge says that one of them
waits for another on that segment: solid if the lock is held to the end of the transaction,
dotted if it may be released before. `gddCtxReduce` removes edges until nothing more can be
removed.

Structs the source reaches through pointers are kept here under what identifies them: a
vertex under its graph and its id, the global degrees under the id. Edges never change
once they are made, so they are values that carry their address. A `GddMap` is the list of
its keys in array order. Degrees are integers without a bound.
-/

import Cloudberry.Gdd.Iterators
import Mathlib.Data.Int.Notation

namespace Cloudberry.Gdd

open Function

/-- `DistributedTransactionId` (`src/include/c.h`). -/
abbrev DistributedTransactionId := UInt64

/-- An edge as handed to `GddCtxAddEdge`: on segment `segid`, `vfrom` waits for `vto`. -/
structure WaitEdge where
  segid : ℤ
  vfrom : DistributedTransactionId
  vto : DistributedTransactionId
  solid : Bool
  deriving DecidableEq, Repr

/-- `GddEdge`. Two edges are the same pointer if and only if they are equal. -/
structure GddEdge extends WaitEdge where
  addr : ℕ
  deriving DecidableEq, Repr

/-- A pointer to a vertex: the graph it is in and its id. -/
abbrev VertRef := ℤ × DistributedTransactionId

/-- `edge->from`. -/
def GddEdge.source (edge : GddEdge) : VertRef := (edge.segid, edge.vfrom)

/-- `edge->to`. -/
def GddEdge.target (edge : GddEdge) : VertRef := (edge.segid, edge.vto)

structure GddVert where
  edgesIn : List GddEdge
  edgesOut : List GddEdge
  deriving Repr

/-- `GddStat`: the degrees of a vertex over all graphs, or of all vertices. -/
structure GddStat where
  indeg : ℤ
  outdeg : ℤ
  deriving DecidableEq, Repr

def gddVertNew : GddVert := { edgesIn := [], edgesOut := [] }

def gddStatInit : GddStat := { indeg := 0, outdeg := 0 }

/-- `GddCtx` with the structs its maps point to, and the next free address for an edge. -/
structure GddCtx where
  topstat : GddStat
  globals : List DistributedTransactionId
  stat : DistributedTransactionId → GddStat
  graphs : List ℤ
  verts : ℤ → List DistributedTransactionId
  vert : VertRef → GddVert
  nextAddr : ℕ

def gddCtxNew : GddCtx :=
  { topstat := gddStatInit
    globals := []
    stat := fun _ => gddStatInit
    graphs := []
    verts := fun _ => []
    vert := fun _ => gddVertNew
    nextAddr := 0 }

namespace GddCtx

section

variable (ctx : GddCtx) (v : VertRef) (edges : List GddEdge)

/-- Change the in-edges of one vertex. -/
def setIn : GddCtx :=
  { ctx with vert := update ctx.vert v { ctx.vert v with edgesIn := edges } }

/-- Change the out-edges of one vertex. -/
def setOut : GddCtx :=
  { ctx with vert := update ctx.vert v { ctx.vert v with edgesOut := edges } }

end

/-- Add `d` to the out-degree of `vid` and of the whole context. -/
def addOutdeg (ctx : GddCtx) (vid : DistributedTransactionId) (d : ℤ) : GddCtx :=
  { ctx with
    topstat := { ctx.topstat with outdeg := ctx.topstat.outdeg + d }
    stat := update ctx.stat vid
      { ctx.stat vid with outdeg := (ctx.stat vid).outdeg + d } }

/-- Add `d` to the in-degree of `vid` and of the whole context. -/
def addIndeg (ctx : GddCtx) (vid : DistributedTransactionId) (d : ℤ) : GddCtx :=
  { ctx with
    topstat := { ctx.topstat with indeg := ctx.topstat.indeg + d }
    stat := update ctx.stat vid
      { ctx.stat vid with indeg := (ctx.stat vid).indeg + d } }

end GddCtx

/-! ### Adding an edge -/

section

variable (ctx : GddCtx)

/-- `gddCtxGetGraph`: a graph first seen is created. -/
def gddCtxGetGraph (segid : ℤ) : GddCtx :=
  if segid ∈ ctx.graphs then ctx
  else
    { ctx with
      graphs := ctx.graphs ++ [segid]
      verts := update ctx.verts segid [] }

/-- `gddGraphGetVert`: a vertex first seen is created. -/
def gddGraphGetVert (v : VertRef) : GddCtx :=
  if v.2 ∈ ctx.verts v.1 then ctx
  else
    { ctx with
      vert := update ctx.vert v gddVertNew
      verts := update ctx.verts v.1 (ctx.verts v.1 ++ [v.2]) }

/-- `gddCtxGetGlobalStat`: the global degrees of a vertex first seen are created. -/
def gddCtxGetGlobalStat (vid : DistributedTransactionId) : GddCtx :=
  if vid ∈ ctx.globals then ctx
  else
    { ctx with
      globals := ctx.globals ++ [vid]
      stat := update ctx.stat vid gddStatInit }

/-- `gddGraphMakeEdge`: find or make both vertices, then the edge, not linked yet. -/
def gddGraphMakeEdge (e : WaitEdge) : GddCtx × GddEdge :=
  let ctx := gddGraphGetVert ctx (e.segid, e.vfrom)
  let ctx := gddGraphGetVert ctx (e.segid, e.vto)
  ({ ctx with nextAddr := ctx.nextAddr + 1 }, { e with addr := ctx.nextAddr })

def gddEdgeLink (edge : GddEdge) : GddCtx :=
  let ctx := ctx.addOutdeg edge.vfrom 1
  let ctx := ctx.addIndeg edge.vto 1
  let ctx := ctx.setOut edge.source ((ctx.vert edge.source).edgesOut ++ [edge])
  ctx.setIn edge.target ((ctx.vert edge.target).edgesIn ++ [edge])

def gddCtxAddEdge (e : WaitEdge) : GddCtx :=
  let ctx := gddCtxGetGraph ctx e.segid
  let (ctx, edge) := gddGraphMakeEdge ctx e
  let ctx := gddCtxGetGlobalStat ctx e.vfrom
  let ctx := gddCtxGetGlobalStat ctx e.vto
  gddEdgeLink ctx edge

end

/-! ### Unlinking an edge -/

section

variable (ctx : GddCtx) (edge : GddEdge)

/-- `gddEdgeUnlinkFrom`: in place if the loop that runs over the vertex's out-edges hands in
its iterator, with a scan otherwise. -/
def gddEdgeUnlinkFrom (fromiter : Option (ListIter GddEdge)) : GddCtx :=
  let ctx := ctx.addOutdeg edge.vfrom (-1)
  match fromiter with
  | some it => ctx.setOut edge.source it.delete.list
  | none => ctx.setOut edge.source ((ctx.vert edge.source).edgesOut.erase edge)

/-- `gddEdgeUnlinkTo`, the same for the in-edges. -/
def gddEdgeUnlinkTo (toiter : Option (ListIter GddEdge)) : GddCtx :=
  let ctx := ctx.addIndeg edge.vto (-1)
  match toiter with
  | some it => ctx.setIn edge.target it.delete.list
  | none => ctx.setIn edge.target ((ctx.vert edge.target).edgesIn.erase edge)

/-- `gddEdgeUnlink`. The iterator handed in goes on as `it.delete`. -/
def gddEdgeUnlink (fromiter toiter : Option (ListIter GddEdge)) : GddCtx :=
  gddEdgeUnlinkTo (gddEdgeUnlinkFrom ctx edge fromiter) edge toiter

end

/-! ### Reducing -/

/-- A `gdd_vert_foreach_in_edge` loop that unlinks the edges it does not skip. The first
argument bounds the number of rounds; a loop over a list makes no more than its length. -/
def foreachInEdge (skip : GddEdge → Bool) (v : VertRef) :
    ℕ → GddCtx → ListIter GddEdge → Bool → GddCtx × Bool
  | 0, ctx, _, dirty => (ctx, dirty)
  | n + 1, ctx, it, dirty =>
    match it.ptr with
    | none => (ctx, dirty)
    | some edge =>
      if skip edge then foreachInEdge skip v n ctx (it.next (ctx.vert v).edgesIn) dirty
      else
        let ctx := gddEdgeUnlink ctx edge none (some it)
        foreachInEdge skip v n ctx (it.delete.next (ctx.vert v).edgesIn) true

/-- The `gdd_vert_foreach_out_edge` loop of `gddVertUnlinkAll`. -/
def foreachOutEdge (v : VertRef) : ℕ → GddCtx → ListIter GddEdge → Bool → GddCtx × Bool
  | 0, ctx, _, dirty => (ctx, dirty)
  | n + 1, ctx, it, dirty =>
    match it.ptr with
    | none => (ctx, dirty)
    | some edge =>
      let ctx := gddEdgeUnlink ctx edge (some it) none
      foreachOutEdge v n ctx (it.delete.next (ctx.vert v).edgesOut) true

/-- `gddVertUnlinkAll`: unlink the in-edges, then the out-edges. -/
def gddVertUnlinkAll (ctx : GddCtx) (v : VertRef) : GddCtx × Bool :=
  let edgesIn := (ctx.vert v).edgesIn
  let (ctx, dirty) := foreachInEdge (fun _ => false) v edgesIn.length ctx (.start edgesIn) false
  let edgesOut := (ctx.vert v).edgesOut
  foreachOutEdge v edgesOut.length ctx (.start edgesOut) dirty

/-- `gddVertReduce`: the rules of the algorithm at one vertex; whether an edge was deleted. -/
def gddVertReduce (ctx : GddCtx) (v : VertRef) : GddCtx × Bool :=
  let global := ctx.stat v.2
  -- a vertex without in-edges or without out-edges anywhere loses all its edges here
  if global.indeg = 0 ∨ global.outdeg = 0 then gddVertUnlinkAll ctx v
  -- one without out-edges on this segment loses the dotted in-edges
  else if (ctx.vert v).edgesOut.length = 0 then
    let edgesIn := (ctx.vert v).edgesIn
    foreachInEdge (fun edge => edge.solid) v edgesIn.length ctx (.start edgesIn) false
  else (ctx, false)

/-- The walk of `GddCtxReduce` over the vertices of one graph, from position `pos`. Deleting
from the map sets `pos` back by one before the loop advances it. -/
def reduceVerts (segid : ℤ) : ℕ → ℕ → GddCtx → Bool → GddCtx × Bool
  | 0, _, ctx, dirty => (ctx, dirty)
  | n + 1, pos, ctx, dirty =>
    match (ctx.verts segid)[pos]? with
    | none => (ctx, dirty)
    | some vid =>
      let (ctx, reduced) := gddVertReduce ctx (segid, vid)
      let dirty := if reduced then true else dirty
      let vert := ctx.vert (segid, vid)
      if vert.edgesIn.length = 0 ∧ vert.edgesOut.length = 0 then
        let verts := (ctx.verts segid).swapRemove pos
        reduceVerts segid n pos { ctx with verts := update ctx.verts segid verts } dirty
      else reduceVerts segid n (pos + 1) ctx dirty

/-- The walk of `GddCtxReduce` over the graphs. -/
def reduceGraphs : List ℤ → GddCtx → Bool → GddCtx × Bool
  | [], ctx, dirty => (ctx, dirty)
  | segid :: graphs, ctx, dirty =>
    let (ctx, dirty) := reduceVerts segid (ctx.verts segid).length 0 ctx dirty
    reduceGraphs graphs ctx dirty

/-- `GddCtxReduce`: walk over everything until a walk deletes no edge. The number bounds the
walks; without an answer when it is used up. -/
def gddCtxReduce : ℕ → GddCtx → Option GddCtx
  | 0, _ => none
  | n + 1, ctx =>
    match reduceGraphs ctx.graphs ctx false with
    | (ctx, true) => gddCtxReduce n ctx
    | (ctx, false) => some ctx

/-! ### The edges of a context -/

/-- What `gdd_ctx_foreach_out_edge` runs over. -/
def outEdges (ctx : GddCtx) : List GddEdge :=
  ctx.graphs.flatMap fun segid => (ctx.verts segid).flatMap fun vid =>
    (ctx.vert (segid, vid)).edgesOut

/-- What `gdd_ctx_foreach_in_edge` runs over. -/
def inEdges (ctx : GddCtx) : List GddEdge :=
  ctx.graphs.flatMap fun segid => (ctx.verts segid).flatMap fun vid =>
    (ctx.vert (segid, vid)).edgesIn

end Cloudberry.Gdd
