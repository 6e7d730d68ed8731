import IdMint.Command.Program
import IdMint.Main
import IdMint.Proofs.Readings
import IdMint.Proofs.Numeral
import IdMint.Proofs.Decimal
import IdMint.Proofs.Spellings
import IdMint.Proofs.Base62
import IdMint.Proofs.Packing
import IdMint.Proofs.Places
import IdMint.Proofs.Issuing
import IdMint.Proofs.Interleaving
import IdMint.Proofs.Calendar
import IdMint.Proofs.CivilTime
import IdMint.Proofs.Stamp
import IdMint.Proofs.Drawing
import IdMint.Proofs.Uniform
import IdMint.Proofs.Turns
import IdMint.Proofs.FlowNumbers
import IdMint.Proofs.NumberText
import IdMint.Proofs.Suffixes
import IdMint.Proofs.Waits
import IdMint.Proofs.Refusals
import IdMint.Proofs.Returns
import IdMint.Proofs.MovedBits
import IdMint.Proofs.Tables
import IdMint.Proofs.HexText
import IdMint.Proofs.Keys
import IdMint.Proofs.Arguments
import IdMint.Proofs.ArgumentParts
import IdMint.Proofs.Masking
import IdMint.Proofs.Disclosure
import IdMint.Proofs.ShortIds
import IdMint.Proofs.Batches
import IdMint.Proofs.Variables
import IdMint.Proofs.Settling
import IdMint.Proofs.OwnAddress
import IdMint.Proofs.Interfaces
import IdMint.Proofs.LastValue
import IdMint.Proofs.Utf8
import IdMint.Proofs.JsonText
import IdMint.Proofs.Printing
import IdMint.Proofs.SameIdentity
import IdMint.Proofs.Outcomes
import IdMint.Proofs.Chunks
import IdMint.Proofs.HashStandard
import IdMint.Proofs.Padding
import IdMint.Proofs.Digest
