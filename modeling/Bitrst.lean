import Bitrst.BranchDifficulty
import Bitrst.BranchValidity
import Bitrst.LinearDelivery
import Bitrst.InvalidBlocks
import Bitrst.MedianTime
import Bitrst.EventDelivery
import Bitrst.EventReplay
import Bitrst.DisconnectRecovery
import Bitrst.ForkChoice
import Bitrst.BlockRemoval
import Bitrst.MempoolRestoration
import Bitrst.MempoolReplay
import Bitrst.MempoolRetention
import Bitrst.MempoolService
import Bitrst.SignatureType
import Bitrst.EvictionPolicy
import Bitrst.ValueConservation
import Bitrst.BlockCodec
import Bitrst.BlockWork
import Bitrst.Retarget
import Bitrst.FileStore
import Bitrst.AcceptedBlocks
import Bitrst.MerkleCommitment
import Bitrst.UtxoReplay
import Bitrst.WalletReplay
import Bitrst.WalletBalance
import Bitrst.OrphanQueue
import Bitrst.BitsEvaluation
import Bitrst.Signing
import Bitrst.MessageRoundTrip
import Bitrst.QueueLoad
import Bitrst.RelayFanout
import Bitrst.BlockRequests
import Bitrst.RepeatedRequests
import Bitrst.FramedReader
import Bitrst.FramedStream
import Bitrst.PeerTranscript
import Bitrst.HandshakeCompletion
import Bitrst.ByteLink
import Bitrst.InboundCapacity
import Bitrst.MineCommand
import Bitrst.BalanceCommand
import Bitrst.TipAgreement
import Bitrst.BlockSync
import Bitrst.BlockGossip
import Bitrst.TransactionGossip
import Bitrst.WalletSpend
