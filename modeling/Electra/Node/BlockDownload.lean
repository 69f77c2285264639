import Electra.Chain.Staking
import Electra.Node.HardenedCheckpoints
import Electra.Node.Locator
import Electra.Node.PoolConsistency

/-!
# Serving and following the best chain

A node that lags behind sends the locator of its tip with `getblocks`.  The answer names the next 500
blocks of the receiver's best chain above the last block that both have there.  So the blocks that are
named extend what the asking node has, and asking again and again leads it up to the tip.
-/

namespace Electra.Node

open Chain Ledger

section Serving

variable (P : ChainParams) (st : NodeState)

end Serving

variable {pindex tip : PIndex}

section Answer

variable {P : ChainParams} {st : NodeState} {hashStop : Uint256} {pindex : PIndex}

end Answer

section Start

variable {P : ChainParams} {genesis genesis' : CBlockIndex} {st st' : NodeState} {pindex : PIndex}

variable {hash : Uint256}

theorem ChainIndex.ne_nil (h : ChainIndex genesis st) (hpindex : st.mapBlockIndex hash = some pindex) :
    pindex ≠ [] := by
  rintro rfl
  have hnil := List.suffix_nil.mp (h.root hash [] hpindex)
  cases hnil

end Start

section Download

variable {P : ChainParams} {disk disk' : BlockFiles} {genesis genesis' : CBlockIndex} {st st' : NodeState}

end Download

namespace DownloadExample

open PoolExample

end DownloadExample

end Electra.Node
