import Bazacoin.Lib.BigEndian
import Bazacoin.Lib.Outcome
import Bazacoin.Lib.PathMap
import Bazacoin.Lib.Run
import Bazacoin.Lib.Tally
import Bazacoin.Lib.Bitmap
import Bazacoin.Lib.TwosComplement
import Bazacoin.Lib.Lex
import Bazacoin.Lib.Channel
import Bazacoin.Lib.Refine
import Bazacoin.Rlp.Raw
import Bazacoin.Rlp.Item
import Bazacoin.Rlp.Encode
import Bazacoin.Rlp.Output
import Bazacoin.Rlp.Canonical
import Bazacoin.Rlp.Stream
import Bazacoin.Rlp.Decode
import Bazacoin.Rlp.Agree
import Bazacoin.Rlp.RoundTrip
import Bazacoin.Trie.Encoding
import Bazacoin.Trie.Tree
import Bazacoin.State.Object
import Bazacoin.State.StateDB
import Bazacoin.State.Revert
import Bazacoin.Vm.Evm
import Bazacoin.State.Commit
import Bazacoin.Trie.Node
import Bazacoin.Trie.Trie
import Bazacoin.Trie.Hasher
import Bazacoin.Trie.Proof
import Bazacoin.Trie.Preorder
import Bazacoin.Trie.Iterator
import Bazacoin.Trie.Walk
import Bazacoin.Trie.Update
import Bazacoin.Trie.Stored
import Bazacoin.Trie.Map
import Bazacoin.Trie.Persist
import Bazacoin.Trie.ProveVerify
import Bazacoin.Core.Types
import Bazacoin.Consensus.Clique
import Bazacoin.Consensus.CliqueVotes
import Bazacoin.State.Balance
import Bazacoin.State.View
import Bazacoin.State.Journal
import Bazacoin.State.Frames
import Bazacoin.Core.StateTransition
import Bazacoin.Core.BlockChain
import Bazacoin.Consensus.Bzhash
import Bazacoin.Consensus.Dataset
import Bazacoin.Consensus.Uncles
import Bazacoin.Consensus.VerifyHeaders
import Bazacoin.Bzc.HeaderQuery
import Bazacoin.Abi.Pack
import Bazacoin.Abi.Unpack
import Bazacoin.Core.TxList
import Bazacoin.Core.TxPool
import Bazacoin.P2p.Rlpx
import Bazacoin.P2p.Connection
import Bazacoin.Bzc.Fetcher
import Bazacoin.Core.Signing
import Bazacoin.Vm.GasTable
import Bazacoin.Core.BlockValidator
import Bazacoin.Consensus.Difficulty
import Bazacoin.Vm.Analysis
import Bazacoin.Vm.Instructions
